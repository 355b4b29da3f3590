import EthosCpc.Cpc.PolyNorm
import EthosCpc.Eunoia.Literal

/-!
# Entailment between lengths of strings

The programs `$str_arith_entail_simple` and `$str_arith_entail_is_approx` of
`programs/Strings.eo`, and the rules `arith-string-pred-entail` and
`arith-string-pred-safe-approx` of `rules/Strings.eo` that call them.

A program that is stuck gives `none`.  `eo::and` and `eo::or` evaluate both
of their arguments, `eo::ite` only the branch it takes.
-/

namespace EthosCpc

open Term (bop uop)

variable (compareVars : List Term → List Term → Bool) (compareVar : Term → Term → Bool)

/-! ## Polynomials that are not negative -/

def strArithEntailSimpleRec : Polynomial → Option Bool
  | [] => some true
  | (.app (.sym .strLen) _ :: t, q) :: p => strArithEntailSimpleRec ((t, q) :: p)
  | ([], q) :: p => if q < 0 then some false else strArithEntailSimpleRec p
  | _ => none
termination_by p => (p.map fun m => m.1.length + 1).sum

def strArithEntailSimple (t : Term) : Option Bool :=
  strArithEntailSimpleRec (getArithPolyNorm compareVars compareVar t)

/-- The sum `(+ a b)` of two integers. -/
abbrev intPlus (a b : Term) : Term := bop .plus a (bop .plus b (.num 0))

def strArithEntailSimplePred : Term → Option Bool
  | .app (.app (.sym .geq) n) m => strArithEntailSimple compareVars compareVar (bop .minus n m)
  | .app (.app (.sym .gt) n) m =>
    strArithEntailSimple compareVars compareVar (bop .minus n (intPlus m (.num 1)))
  | _ => none

/-! ## Approximations -/

/-- `eo::and` of two results. -/
def boolAnd (a b : Option Bool) : Option Bool := a.bind fun x => b.map fun y => x && y

/-- `eo::or` of two results. -/
def boolOr (a b : Option Bool) : Option Bool := a.bind fun x => b.map fun y => x || y

def strArithEntailIsApproxLen : Term → Term → Bool → Option Bool
  | .app (.app (.app (.sym .strSubstr) s) n1) n2, n, isUnder =>
    let npm := intPlus n1 n2
    let lx := uop .strLen s
    if n = n2 then
      if isUnder then
        boolAnd (strArithEntailSimple compareVars compareVar n1)
          (strArithEntailSimplePred compareVars compareVar (bop .geq lx npm))
      else strArithEntailSimple compareVars compareVar n2
    else if n = lx then some (!isUnder)
    else if n = bop .minus lx n1 then
      if isUnder then
        boolAnd (strArithEntailSimple compareVars compareVar n1)
          (strArithEntailSimplePred compareVars compareVar (bop .geq npm lx))
      else strArithEntailSimplePred compareVars compareVar (bop .geq lx n1)
    else some false
  | .app (.app (.app (.sym .strReplace) s) t) r, n, isUnder =>
    let ls := uop .strLen s
    let lt := uop .strLen t
    let lr := uop .strLen r
    if n = ls then
      if isUnder then
        boolOr (strArithEntailSimplePred compareVars compareVar (bop .geq lr lt))
          (strArithEntailSimplePred compareVars compareVar (bop .geq lr ls))
      else strArithEntailSimplePred compareVars compareVar (bop .geq lt lr)
    else if n = intPlus ls lr then some (!isUnder)
    else if n = bop .minus ls lt then some isUnder
    else some false
  | .app (.sym .strFromInt) n1, n, isUnder =>
    if n = intPlus n1 (.num 1) then
      boolAnd (some (!isUnder)) (strArithEntailSimple compareVars compareVar n1)
    else if n = n1 then
      boolAnd (some (!isUnder))
        (strArithEntailSimplePred compareVars compareVar (bop .gt n1 (.num 0)))
    else if n = .num 1 then
      boolAnd (some isUnder) (strArithEntailSimple compareVars compareVar n1)
    else some false
  | _, _, _ => none

/-- `$str_arith_entail_is_approx_indexof`; the start position is not used. -/
def strArithEntailIsApproxIndexof (s t m : Term) (isUnder : Bool) : Option Bool :=
  let ls := uop .strLen s
  let lt := uop .strLen t
  if m = .num (-1) then some isUnder
  else if m = ls then some (!isUnder)
  else if m = bop .minus ls lt then
    boolAnd (some (!isUnder)) (strArithEntailSimplePred compareVars compareVar (bop .geq ls lt))
  else some false

def strArithEntailIsApproxToInt (n : Term) (isUnder : Bool) : Option Bool :=
  some (if n = .num (-1) then isUnder else false)

def strArithEntailIsApprox (n m : Term) (isUnder : Bool) : Option Bool :=
  if n = m then some true
  else
    match n, m with
    | .app (.sym .strLen) s, n1 =>
      strArithEntailIsApproxLen compareVars compareVar s n1 isUnder
    | .app (.app (.app (.sym .strIndexof) s) t) _, n1 =>
      strArithEntailIsApproxIndexof compareVars compareVar s t n1 isUnder
    | .app (.sym .strToInt) _, n1 => strArithEntailIsApproxToInt n1 isUnder
    | .app (.app (.sym .plus) n1) n2, .app (.app (.sym .plus) n3) n4 =>
      boolAnd (strArithEntailIsApprox n1 n3 isUnder) (strArithEntailIsApprox n2 n4 isUnder)
    | .app (.app (.sym .times) n1) (.app (.app (.sym .times) n3) (.num 1)),
        .app (.app (.sym .times) n1') (.app (.app (.sym .times) n5) (.num 1)) =>
        if n1 = n1' then
          (eoIsNeg n1).bind fun b => strArithEntailIsApprox n3 n5 (if b then !isUnder else isUnder)
        else none
    | _, _ => none

/-! ## The rules -/

def arithStringPredEntail : Term → Option Term
  | .app (.app (.sym .eq) (.app (.app (.sym .geq) n) (.num 0))) (.bool true) =>
    eoRequires (strArithEntailSimple compareVars compareVar n = some true)
      (some (bop .eq (bop .geq n (.num 0)) (.bool true)))
  | _ => none

def arithStringPredSafeApprox : Term → Option Term
  | .app (.app (.sym .eq) (.app (.app (.sym .geq) n) (.num 0)))
      (.app (.app (.sym .geq) m) (.num 0)) =>
      eoRequires (strArithEntailIsApprox compareVars compareVar n m true = some true) <|
      eoRequires (strArithEntailSimplePred compareVars compareVar (bop .geq m (.num 0)) = some true) <|
        some (bop .eq (bop .geq n (.num 0)) (bop .geq m (.num 0)))
  | _ => none

end EthosCpc
