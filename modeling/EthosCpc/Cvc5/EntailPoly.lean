import EthosCpc.Cvc5.EntailNode
import EthosCpc.Library.MapPoly

/-!
# Sums of monomials

What the entailment tests use of `theory/arith/arith_poly_norm.cpp`,
`theory/arith/arith_msum.cpp` and `expr/aci_norm.cpp`, and the rewriting of
lengths in `theory/strings/arith_entail.cpp`.  The traversals of the source
remember the nodes that they have visited; here they are recursions.  An
exception or a failed assertion is `none`.

`rewriteLengthIntro` is where the operator of a parameterized kind gets lost:
a node is rebuilt from the children that a loop over it sees.
-/

namespace EthosCpc.Cvc5.Entail

open Library (MapPoly)
open Library.MapPoly (addMonomial multiplyMonomial add subtract multiply)

variable (Γ : Nat → Ty) (le : Node → Node → Bool)

/-! ## Polynomials -/

abbrev PolyNorm := MapPoly Node Rat

/-- Kinds that are computed from all their children. -/
def isPolyOp : Kind → Bool
  | .add | .sub | .neg | .mult | .nonlinearMult | .toReal => true
  | _ => false

def constDivision? : Kind → List Node → Option (Node × Rat)
  | .division, a :: c :: _ | .divisionTotal, a :: c :: _ =>
    match c.rational? with
    | some q => if q ≠ 0 then some (a, q) else none
    | none => none
  | _, _ => none

def isSubtracted (k : Kind) (i : Nat) : Bool :=
  (decide (k = .sub) && decide (i = 1)) || decide (k = .neg)

def isMultiplied (k : Kind) (i : Nat) : Bool :=
  decide (0 < i) && decide (k = .mult ∨ k = .nonlinearMult)

/-- Combine the polynomials of the children from the `i`-th on. -/
def combine (k : Kind) : Nat → PolyNorm → List PolyNorm → PolyNorm
  | _, ret, [] => ret
  | i, ret, p :: ps =>
    combine k (i + 1) (if isSubtracted k i then subtract ret p
        else if isMultiplied k i then multiply le ret p
        else add ret p) ps

mutual

def mkPolyNorm : Node → PolyNorm
  | .constInteger z => addMonomial ∅ [] z false
  | .constRational q => addMonomial ∅ [] q false
  | .app k ds =>
    if isPolyOp k then combine le k 0 ∅ (mkPolyNorms ds)
    else match constDivision? k ds, mkPolyNorms ds with
      | some (_, q), p :: _ => multiplyMonomial le (add ∅ p) [] q⁻¹
      | _, _ => addMonomial ∅ [.app k ds] 1 false
  | n => addMonomial ∅ [n] 1 false

/-- The polynomials of the children. -/
def mkPolyNorms : List Node → List PolyNorm
  | [] => []
  | c :: cs => mkPolyNorm c :: mkPolyNorms cs

end

/-- `NodeManager::mkConstRealOrInt`, at a type. -/
def mkConstRealOrInt (T : Ty) (q : Rat) : Option Node :=
  match T with
  | .int => if q.den = 1 then some (.constInteger q.num) else none
  | .real => some (.constRational q)
  | _ => none

def mkProduct : List Node → Node
  | [v] => v
  | vs => .app .mult vs

def mkMonomial (T : Ty) (m : Σ _ : List Node, Rat) : Option Node :=
  (mkConstRealOrInt T m.2).map fun coeff =>
    if m.1 = [] then coeff
    else if m.2 = 1 then mkProduct m.1
    else .app .mult [coeff, mkProduct m.1]

/-- `PolyNorm::toNode`, at an arithmetic type. -/
def toNode (T : Ty) (p : PolyNorm) : Option Node :=
  (p.entries.mapM (mkMonomial T)).bind fun sum =>
    match sum with
    | [] => mkConstRealOrInt T 0
    | [t] => some t
    | _ => some (.app .add (sum.mergeSort le))

def getPolyNorm (a : Node) : Option Node :=
  (typeOf Γ a).bind fun T =>
    if T.isArithType then toNode le T (mkPolyNorm le a) else some a

/-! ## Lengths -/

mutual

/-- The components of a concatenation of any depth, without the empty word. -/
def flatten (nt : Node) : Node → List Node
  | .app .strConcat cs => if .app .strConcat cs = nt then [] else flattenList nt cs
  | n => if n = nt then [] else [n]

/-- The components of the children. -/
def flattenList (nt : Node) : List Node → List Node
  | [] => []
  | c :: cs => flatten nt c ++ flattenList nt cs

end

/-- `getACINormalForm`, for a concatenation. -/
def getACINormalForm (cs : List Node) : Option Node :=
  ((typeOf Γ (.app .strConcat cs)).bind mkEmptyWord).map fun nt =>
    match flattenList nt cs with
    | [] => nt
    | [c] => c
    | cs' => .app .strConcat cs'

def getConcat : Node → List Node
  | .app .strConcat cs => cs
  | n => [n]

def isConcat : Node → Bool
  | .app .strConcat _ => true
  | _ => false

/-- The summand of a component. -/
def componentLength (c : Node) : Option Node :=
  if c.isConst then (getLength c).map fun n : Nat => .constInteger n else some (.app .strLen [c])

def sumOfLengths (arg : Node) : Option Node :=
  ((getConcat arg).mapM componentLength).map fun sum =>
    match sum with
    | [t] => t
    | _ => .app .add sum

/-- The length of a concatenation or a constant, at the end of a visit. -/
def introLength : Node → Option Node
  | .app .strLen [.app .strConcat cs] => (getACINormalForm Γ cs).bind sumOfLengths
  | .app .strLen [c] => if c.isConst then sumOfLengths c else some (.app .strLen [c])
  | n => some n

mutual

def rewriteLengthIntro : Node → Option Node
  | .app .applyUf [] => some (.app .applyUf [])
  | .app .applyUf (f :: cs) =>
    -- `mkNode` takes the first of the rewritten children for the operator
    (rewriteLengthIntros cs).map fun cs' =>
      if cs' = cs then .app .applyUf (f :: cs) else .app .applyUf cs'
  | .app k cs => (rewriteLengthIntros cs).bind fun cs' => introLength Γ (.app k cs')
  | n => some n

/-- The rewritten children. -/
def rewriteLengthIntros : List Node → Option (List Node)
  | [] => some []
  | c :: cs =>
    (rewriteLengthIntro c).bind fun c' => (rewriteLengthIntros cs).map fun cs' => c' :: cs'

end

/-- `ArithEntail::rewriteArith`, without a rewriter. -/
def rewriteArith (a : Node) : Option Node :=
  if typeOf Γ a = some .int then (rewriteLengthIntro Γ a).bind (getPolyNorm Γ le) else none

/-! ## Monomial sums -/

/-- A map from the variables of monomials to their coefficients: a missing
variable stands for the constant, a missing coefficient for one. -/
abbrev MSum := List (Option Node × Option Node)

namespace ArithMSum

/-- `getMonomial`, for the coefficient and the variable. -/
def getCoeff : Node → Option (Node × Node)
  | .app .mult [c, v] => if c.isConst then some (c, v) else none
  | _ => none

def monomialEntry (n : Node) : Option Node × Option Node :=
  if n.isConst then (none, some n)
  else match getCoeff n with
    | some (c, v) => (some v, some c)
    | none => (some n, none)

/-- `getMonomial`, into a sum. -/
def getMonomial (n : Node) (msum : MSum) : Option MSum :=
  if (msum.map Prod.fst).contains (monomialEntry n).1 then none else some (msum ++ [monomialEntry n])

/-- Keys in the order of a map, the null node first. -/
def keyLe : Option Node → Option Node → Bool
  | none, _ => true
  | some _, none => false
  | some a, some b => le a b

def summands : Node → List Node
  | .app .add cs => cs
  | n => [n]

/-- The entries in the order of the map. -/
def inOrder (msum : MSum) : MSum := msum.mergeSort fun e e' => keyLe le e.1 e'.1

def getMonomialSum (n : Node) : Option MSum :=
  ((summands n).foldlM (fun msum c => getMonomial c msum) []).map (inOrder le)

def coeff : Option Node → Option Rat
  | none => some 1
  | some c => c.rational?

/-- `NodeManager::mkConstRealOrInt`, at the type of the number. -/
def mkConst (q : Rat) : Node := if q.den = 1 then .constInteger q.num else .constRational q

/-- Subtract an entry of the other side of an equation. -/
def subtractEntry (msum : MSum) (e : Option Node × Option Node) : Option MSum :=
  (coeff e.2).bind fun r2 =>
    match msum.lookup e.1 with
    | some c => (coeff c).map fun r1 =>
      msum.map fun e' => if e'.1 = e.1 then (e.1, some (mkConst (r1 - r2))) else e'
    | none => some (msum ++ [(e.1, some (mkConst (-r2)))])

/-- `getMonomialSumLit`, for an equation. -/
def getMonomialSumLit (a b : Node) : Option MSum :=
  if (typeOf Γ a).any Ty.isArithType then
    (getMonomialSum le a).bind fun msum =>
      if b.rational? = some 0 then some msum
      else (getMonomialSum le b).bind fun msum2 => (msum2.foldlM subtractEntry msum).map (inOrder le)
  else none

def mkCoeffTerm (c : Option Node) (t : Node) : Option Node :=
  match c with
  | none => some t
  | some c => c.rational?.bind fun r => (typeOf Γ t).bind fun T =>
    if r.den ≠ 1 ∧ T ≠ .real then some (.app .mult [c, .app .toReal [t]])
    else (mkConstRealOrInt T r).map fun c' => .app .mult [c', t]

def mkEntry (e : Option Node × Option Node) : Option Node :=
  match e.1 with
  | some v => mkCoeffTerm Γ e.2 v
  | none => e.2

def castToReal (n : Node) : Option Node :=
  if n.isConst then n.rational?.map .constRational else some (.app .toReal [n])

/-- A summand of the solution, at the type of the variable. -/
def mkSummand (isReal : Bool) (e : Option Node × Option Node) : Option Node :=
  (mkEntry Γ e).bind fun m =>
    if isReal && typeOf Γ m ≠ some .real then castToReal m else some m

/-- `isolate`: the solution for a variable, unless it needs a coefficient. -/
def isolate (v : Node) (msum : MSum) : Option Node :=
  (msum.lookup (some v)).bind fun c => (coeff c).bind fun r => (typeOf Γ v).bind fun T =>
    if r = 0 then none
    else
      ((msum.filter fun e => e.1 ≠ some v).mapM (mkSummand Γ (decide (T = Ty.real)))).bind fun children =>
      (match children with
        | [] => mkConstRealOrInt T 0
        | [m] => some m
        | _ => some (.app .add children)).bind fun val =>
      (if r = 1 ∨ r = -1 then some val
        else if T = Ty.int then none
        else some (.app .mult [val, .constRational (1 / |r|)])).bind fun val =>
      if 0 < r then
        ((typeOf Γ val).bind fun T' => mkConstRealOrInt T' (-1)).map fun c => .app .mult [c, val]
      else some val

def solveEqualityFor (a b v : Node) : Option Node :=
  if a = v then some b
  else if b = v then some a
  else (getMonomialSumLit Γ le a b).bind (isolate Γ v)

end ArithMSum

end EthosCpc.Cvc5.Entail
