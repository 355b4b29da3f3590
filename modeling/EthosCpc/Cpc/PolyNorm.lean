import EthosCpc.Semantics.Arith
import EthosCpc.Library.SparsePoly

/-!
# Polynomial normalization

The programs of `programs/PolyNorm.eo` and the rules `arith_poly_norm` and
`arith_poly_norm_rel` of `rules/Arith.eo`.

A `@Polynomial` is a list of monomials `(@mon vars c)` with a rational
coefficient, so the arithmetic of polynomials is that of
`EthosCpc.Library.SparsePoly`, over terms as variables.  `$compare_var`
compares hashes and answers differently from run to run.  It is a parameter
here, once for lists of variables and once for single variables, and
nothing is assumed about it.
-/

namespace EthosCpc

open Term (bop uop)
open Library (Mon SparsePoly)

abbrev Monomial := Mon Term Rat

abbrev Polynomial := SparsePoly Term Rat

variable (compareVars : List Term → List Term → Bool) (compareVar : Term → Term → Bool)

/-! ## Arithmetic of polynomials -/

def polyNeg (p : Polynomial) : Polynomial := SparsePoly.neg p

def polyModCoeffs (w : Int) : Polynomial → Polynomial
  | [] => []
  | (a, c) :: p =>
    if ⌊c⌋ % w = 0 then polyModCoeffs w p else (a, ((⌊c⌋ % w : Int) : Rat)) :: polyModCoeffs w p

def polyAdd (p q : Polynomial) : Polynomial := SparsePoly.add compareVars p q

def polyMulMon (m : Monomial) (p : Polynomial) : Polynomial :=
  SparsePoly.mulMon compareVars compareVar m p

def polyMul (p q : Polynomial) : Polynomial := SparsePoly.mul compareVars compareVar p q

/-! ## Normal forms of terms -/

def polyVar (t : Term) : Polynomial := [([t], 1)]

/-- The polynomial of a constant, empty for zero. -/
def polyConst (q : Rat) : Polynomial := if q = 0 then [] else [([], q)]

def getArithPolyNormDiv (a1 : Term) (a1p : Polynomial) (a2 : Term) : Polynomial :=
  match eoToQ a2 with
  | some q =>
    if q ≠ 0 then polyMulMon compareVars compareVar ([], 1 / q) a1p
    else polyVar (bop .qdiv a1 a2)
  | none => polyVar (bop .qdiv a1 a2)

def getArithPolyNorm : Term → Polynomial
  | .app (.sym .uminus) a1 => polyNeg (getArithPolyNorm a1)
  | .app (.app (.sym .plus) a1) a2 =>
    polyAdd compareVars (getArithPolyNorm a1) (getArithPolyNorm a2)
  | .app (.app (.sym .minus) a1) a2 =>
    polyAdd compareVars (getArithPolyNorm a1) (polyNeg (getArithPolyNorm a2))
  | .app (.app (.sym .times) a1) a2 =>
    polyMul compareVars compareVar (getArithPolyNorm a1) (getArithPolyNorm a2)
  | .app (.app (.sym .qdiv) a1) a2 =>
    getArithPolyNormDiv compareVars compareVar a1 (getArithPolyNorm a1) a2
  | .app (.app (.sym .qdivTotal) a1) a2 =>
    getArithPolyNormDiv compareVars compareVar a1 (getArithPolyNorm a1) a2
  | .app (.sym .toReal) a1 => getArithPolyNorm a1
  | a =>
    match eoToQ a with
    | some q => polyConst q
    | none => polyVar a

def getBvPolyNormRec : Term → Polynomial
  | .app (.sym .bvneg) b1 => polyNeg (getBvPolyNormRec b1)
  | .app (.app (.sym .bvadd) b1) b2 =>
    polyAdd compareVars (getBvPolyNormRec b1) (getBvPolyNormRec b2)
  | .app (.app (.sym .bvsub) b1) b2 =>
    polyAdd compareVars (getBvPolyNormRec b1) (polyNeg (getBvPolyNormRec b2))
  | .app (.app (.sym .bvmul) b1) b2 =>
    polyMul compareVars compareVar (getBvPolyNormRec b1) (getBvPolyNormRec b2)
  | .bin _ v => polyConst (v.toNat : Rat)
  | b => polyVar b

def getBvPolyNorm (w : Int) (b : Term) : Polynomial :=
  polyModCoeffs w (getBvPolyNormRec compareVars compareVar b)

/-! ## The rules -/

def arithPolyNorm : Term → Option Term
  | .app (.app (.sym .eq) a) b =>
    eoRequires (getArithPolyNorm compareVars compareVar a =
      getArithPolyNorm compareVars compareVar b) (some (bop .eq a b))
  | _ => none

/-- `$sgn` of a literal: its sign as an integer. -/
def eoSgn : Term → Option Int
  | .num z => some (if z < 0 then -1 else if -z < 0 then 1 else 0)
  | .rat q => some (if q < 0 then -1 else if -q < 0 then 1 else 0)
  | _ => none

def isPolyNormRelConstsRel (r cx cy : Term) : Option Bool :=
  match r with
  | .sym .lt | .sym .leq | .sym .geq | .sym .gt =>
    (eoSgn cx).bind fun s => (eoSgn cy).map fun s' => decide (s = s')
  | .sym .eq => some true
  | _ => some false

def isPolyNormRelConsts (r cx cy : Term) : Option Bool :=
  (eoToQ cx).bind fun qx => (eoToQ cy).bind fun qy =>
  (isPolyNormRelConstsRel r cx cy).map fun b => !(decide (qx = 0) || decide (qy = 0)) && b

def isEqMaybeToReal (x y : Term) : Option Bool :=
  if x = y ∨ x = uop .toReal y then some true else none

def arithPolyNormRel : Term → Term → Option Term
  | .app (.app (.sym .eq) (.app (.app (.sym .times) cx) (.app (.app (.sym .times) x) one)))
        (.app (.app (.sym .times) cy) (.app (.app (.sym .times) y) one')),
      .app (.app (.sym .eq) (.app (.app r x1) x2)) (.app (.app r' y1) y2) =>
      if one' = one ∧ r' = r then
        eoRequires (eoToQ one = some 1) <|
        eoRequires (isPolyNormRelConsts r cx cy = some true) <|
        eoRequires (isEqMaybeToReal x (bop .minus x1 x2) = some true) <|
        eoRequires (isEqMaybeToReal y (bop .minus y1 y2) = some true) <|
          some (bop .eq (.app (.app r x1) x2) (.app (.app r' y1) y2))
      else none
  | _, _ => none

/-! ## Divisions that stay opaque -/

/-- The divisions that the normalization of a term keeps as variables: whether
it is `/_total`, and its two arguments. -/
def opaqueDivs : Term → List (Bool × Term × Term)
  | .app (.sym .uminus) a1 => opaqueDivs a1
  | .app (.app (.sym .plus) a1) a2 => opaqueDivs a1 ++ opaqueDivs a2
  | .app (.app (.sym .minus) a1) a2 => opaqueDivs a1 ++ opaqueDivs a2
  | .app (.app (.sym .times) a1) a2 => opaqueDivs a1 ++ opaqueDivs a2
  | .app (.app (.sym .qdiv) a1) a2 =>
    match eoToQ a2 with
    | some q => if q ≠ 0 then opaqueDivs a1 else [(false, a1, a2)]
    | none => [(false, a1, a2)]
  | .app (.app (.sym .qdivTotal) a1) a2 =>
    match eoToQ a2 with
    | some q => if q ≠ 0 then opaqueDivs a1 else [(true, a1, a2)]
    | none => [(true, a1, a2)]
  | .app (.sym .toReal) a1 => opaqueDivs a1
  | _ => []

end EthosCpc
