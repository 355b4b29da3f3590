import EthosCpc.Cpc.Booleans

/-!
# The checker of the Boolean rules in cvc5

`BoolProofRuleChecker::checkInternal` of `theory/booleans/proof_checker.cpp`
for the five clausal rules.  A node is written as the term that it is printed
as: an `OR` node is an `or`-list with at least two elements.

A rule returns no node where cvc5 returns the null node or stops at an
assertion.
-/

namespace EthosCpc.Cvc5

open EthosCpc.Term (bop uop)

/-! ## Nodes and clauses -/

/-- The children of an `OR` node. -/
def orKids (t : Term) : Option (List Term) := (orList t).filter fun xs => decide (2 ≤ xs.length)

/-- A term that is a printed node at its root. -/
def IsNode (t : Term) : Prop := (∃ a b, t = bop .or a b) → (orKids t).isSome = true

/-- The literals of a clause, where a unit clause is recognized by the literal `elim` that is to
be eliminated from it. -/
def clauseOf (C elim : Term) : List Term :=
  match orKids C with
  | some xs => if C = elim then [C] else xs
  | none => [C]

/-- The literals of a clause that is no unit clause. -/
def litsOf (C : Term) : List Term := (orKids C).getD [C]

/-- `NodeManager::mkOr`. -/
def mkOrNode : List Term → Term
  | [] => .bool false
  | [x] => x
  | xs => mkOr xs

/-- The literals that a step eliminates from its left and its right clause. -/
def elims (pol : Bool) (L : Term) : Term × Term :=
  if pol then (L, uop .not L) else (uop .not L, L)

/-! ## `RESOLUTION`, `FACTORING` and `REORDERING` -/

/-- `RESOLUTION`: the first occurrence of each pivot is removed. -/
def checkResolution (C1 C2 : Term) (pol : Bool) (L : Term) : Term :=
  mkOrNode ((clauseOf C1 (elims pol L).1).erase (elims pol L).1 ++
    (clauseOf C2 (elims pol L).2).erase (elims pol L).2)

/-- The loop of `FACTORING`. -/
def factorLoop : List Term → List Term → List Term
  | _, [] => []
  | seen, x :: xs => if x ∈ seen then factorLoop seen xs else x :: factorLoop (x :: seen) xs

/-- `FACTORING`. -/
def checkFactoring (C : Term) : Option Term :=
  (orKids C).bind fun xs =>
    if (factorLoop [] xs).length = xs.length then none else some (mkOrNode (factorLoop [] xs))

/-- `REORDERING`: the two clauses are compared as sets. -/
def checkReordering (C1 C2 : Term) : Option Term :=
  if litsOf C1 ⊆ litsOf C2 ∧ litsOf C2 ⊆ litsOf C1 then some C2 else none

/-! ## `CHAIN_RESOLUTION` -/

/-- One link: each pivot has to occur, and its first occurrence is removed. -/
def chainLink (lhs : List Term) (C : Term) (pol : Bool) (L : Term) : Option (List Term) :=
  let rhs := clauseOf C (elims pol L).2
  if (elims pol L).1 ∈ lhs ∧ (elims pol L).2 ∈ rhs then
    some (lhs.erase (elims pol L).1 ++ rhs.erase (elims pol L).2)
  else none

/-- The loop over the links; there is one polarity and one pivot for each further premise. -/
def chainLinks : List Term → List Term → List Bool → List Term → Option (List Term)
  | lhs, [], [], [] => some lhs
  | lhs, C :: Cs, pol :: pols, L :: lits =>
    (chainLink lhs C pol L).bind fun lhs => chainLinks lhs Cs pols lits
  | _, _, _, _ => none

/-- `CHAIN_RESOLUTION` on the premises `C` and `Cs`. -/
def checkChainResolution (C : Term) (Cs : List Term) (pols : List Bool) (lits : List Term) :
    Option Term :=
  match pols, lits with
  | pol :: pols, L :: lits =>
    (chainLinks (clauseOf C (elims pol L).1) Cs (pol :: pols) (L :: lits)).map mkOrNode
  | _, _ => none

/-! ## `CHAIN_M_RESOLUTION` -/

/-- One link: all occurrences of the pivots are removed. -/
def chainMLink (lhs : List Term) (C : Term) (pol : Bool) (L : Term) : List Term :=
  lhs.filter (· ≠ (elims pol L).1) ++ (clauseOf C (elims pol L).2).filter (· ≠ (elims pol L).2)

/-- The loop over the links, which ignores premises behind the last pivot. -/
def chainMLinks : List Term → List Term → List Bool → List Term → Option (List Term)
  | lhs, _, [], [] => some lhs
  | lhs, C :: Cs, pol :: pols, L :: lits => chainMLinks (chainMLink lhs C pol L) Cs pols lits
  | _, _, _, _ => none

/-- The clause that `CHAIN_M_RESOLUTION` computes. -/
def chainMClause (C : Term) (Cs : List Term) (pols : List Bool) (lits : List Term) :
    Option (List Term) :=
  match pols, lits with
  | pol :: pols, L :: lits =>
    chainMLinks (clauseOf C (elims pol L).1) Cs (pol :: pols) (L :: lits)
  | [], [] => if (orKids C).isSome then none else some [C]
  | _, _ => none

/-- The comparison of the computed clause with the conclusion, as sets. -/
def sameSet (lits : List Term) (Cr : Term) : Bool :=
  match factorLoop [] lits with
  | [] => decide (Cr = .bool false)
  | [x] => decide (Cr = x)
  | xs => match orKids Cr with
    | some ys => decide (xs ⊆ ys ∧ ys ⊆ xs)
    | none => false

/-- `CHAIN_M_RESOLUTION` on the premises `C` and `Cs`. -/
def checkChainMResolution (C : Term) (Cs : List Term) (Cr : Term) (pols : List Bool)
    (lits : List Term) : Option Term :=
  (chainMClause C Cs pols lits).bind fun xs => if sameSet xs Cr then some Cr else none

/-! ## Steps -/

/-- A list of terms as an `@list`. -/
def mkList : List Term → Term
  | [] => .sym .listNil
  | x :: xs => bop .listCons x (mkList xs)

/-- A step with its premises and arguments. -/
inductive BoolStep where
  | resolution (C1 C2 : Term) (pol : Bool) (L : Term)
  | chainResolution (C : Term) (Cs : List Term) (pols : List Bool) (lits : List Term)
  | chainMResolution (C : Term) (Cs : List Term) (Cr : Term) (pols : List Bool) (lits : List Term)
  | factoring (C : Term)
  | reordering (C1 C2 : Term)

namespace BoolStep

def formulas : BoolStep → List Term
  | resolution C1 C2 _ L => [C1, C2, L]
  | chainResolution C Cs _ lits => C :: Cs ++ lits
  | chainMResolution C Cs Cr _ lits => C :: Cs ++ Cr :: lits
  | factoring C => [C]
  | reordering C1 C2 => [C1, C2]

/-- `BoolProofRuleChecker::checkInternal`. -/
def checkInternal : BoolStep → Option Term
  | resolution C1 C2 pol L => some (checkResolution C1 C2 pol L)
  | chainResolution C Cs pols lits => checkChainResolution C Cs pols lits
  | chainMResolution C Cs Cr pols lits => checkChainMResolution C Cs Cr pols lits
  | factoring C => checkFactoring C
  | reordering C1 C2 => checkReordering C1 C2

/-- The rule of the signature with the same name on the printed premises and arguments. -/
def printed : BoolStep → Option Term
  | resolution C1 C2 pol L => EthosCpc.resolution C1 C2 (.bool pol) L
  | chainResolution C Cs pols lits =>
    EthosCpc.chainResolution (C :: Cs) (mkList (pols.map .bool)) (mkList lits)
  | chainMResolution C Cs Cr pols lits =>
    EthosCpc.chainMResolution (C :: Cs) Cr (mkList (pols.map .bool)) (mkList lits)
  | factoring C => EthosCpc.factoring C
  | reordering C1 C2 => EthosCpc.reordering C1 C2

end BoolStep

end EthosCpc.Cvc5
