import EthosCpc.Cpc.AciNorm
import EthosCpc.Cpc.StrArithEntail

/-!
# The arithmetic rewrites

The `arith-*` rules of `rules/Rewrites.eo`.  A rule has parameters, premises
and a conclusion.  Ethos binds the parameters to the arguments of a step
without a look at their declared types, and matches the premises; only the
conclusion has to type check.

The nil terminator of an application of `+`, `*`, `and` or `or` is the one
of the type that the rule declares for its first argument.
-/

namespace EthosCpc

open Term (bop uop)

variable (Γ : Nat → Ty)

/-- A rule applied to its arguments: the premises that it asks for, and its conclusion. -/
abbrev RuleInstance : Type := List Term × Term

/-! ## Conclusions with lists and local definitions -/

/-- `(op ts t ss)` where `ts` and `ss` are list parameters. -/
def spliceList (op : Sym) (ts t ss : Term) : Option Term := listConcat Γ op ts (bop op t ss)

/-- The conclusion of `arith-mod-over-mod` and `arith-mod-over-mod-mult`. -/
def arithModOverModList (op : Sym) (c1 ts1 r1 ss1 : Term) : Option Term :=
  (spliceList Γ op ts1 (bop .modTotal r1 c1) ss1).bind fun lhs =>
    ((spliceList Γ op ts1 r1 ss1).bind (listSingletonElim Γ op)).map fun rhs =>
      bop .eq (bop .modTotal lhs c1) (bop .modTotal rhs c1)

/-- The conclusion of `arith-abs-int-gt` and `arith-abs-real-gt`, for the zero of the type. -/
def arithAbsGt (zero x1 y1 : Term) : Term :=
  bop .eq (bop .gt (uop .abs x1) (uop .abs y1)) (.app (bop .ite (bop .geq x1 zero)
        (.app (bop .ite (bop .geq y1 zero) (bop .gt x1 y1)) (bop .gt x1 (uop .uminus y1))))
      (.app (bop .ite (bop .geq y1 zero) (bop .gt (uop .uminus x1) y1))
        (bop .gt (uop .uminus x1) (uop .uminus y1))))

/-- The equation `(= t 0)` is false. -/
def isNonzero (t : Term) : Term := bop .eq (bop .eq t (.num 0)) (.bool false)

/-- The real `c1` is no integer. -/
def isNoInt (c1 : Term) : Term :=
  bop .eq (bop .eq (uop .toReal (uop .toInt c1)) c1) (.bool false)

/-! ## The rules -/

inductive ArithRewrite
  | divTotalZeroReal | divTotalZeroInt | intDivTotal | intDivTotalOne | intDivTotalZero
  | intDivTotalNeg | intModTotal | intModTotalOne | intModTotalZero | intModTotalNeg
  | elimGt | elimLt | elimIntGt | elimIntLt | elimLeq | leqNorm | geqTighten
  | geqNorm1Int | geqNorm1Real | eqElimReal | eqElimInt | toIntElimToReal
  | modOverMod1 | modOverMod | modOverModMult | intEqConflict | intGeqTighten | divisibleElim
  | absEq | absIntGt | absRealGt | geqIteLift | leqIteLift | minLt1 | minLt2 | maxGeq1 | maxGeq2
  deriving DecidableEq, Repr

/-- The instance of a rule at the arguments of a step. -/
def ArithRewrite.apply : ArithRewrite → List Term → Option RuleInstance
  | .divTotalZeroReal, [t1] => some ([], bop .eq (bop .qdivTotal t1 (.rat 0)) (.rat 0))
  | .divTotalZeroInt, [t1] => some ([], bop .eq (bop .qdivTotal t1 (.num 0)) (.rat 0))
  | .intDivTotal, [t1, s1] =>
    some ([isNonzero s1], bop .eq (bop .div t1 s1) (bop .divTotal t1 s1))
  | .intDivTotalOne, [t1] => some ([], bop .eq (bop .divTotal t1 (.num 1)) t1)
  | .intDivTotalZero, [t1] => some ([], bop .eq (bop .divTotal t1 (.num 0)) (.num 0))
  | .intDivTotalNeg, [t1, s1] =>
    some ([bop .eq (bop .lt s1 (.num 0)) (.bool true)],
      bop .eq (bop .divTotal t1 s1) (uop .uminus (bop .divTotal t1 (uop .uminus s1))))
  | .intModTotal, [t1, s1] =>
    some ([isNonzero s1], bop .eq (bop .mod t1 s1) (bop .modTotal t1 s1))
  | .intModTotalOne, [t1] => some ([], bop .eq (bop .modTotal t1 (.num 1)) (.num 0))
  | .intModTotalZero, [t1] => some ([], bop .eq (bop .modTotal t1 (.num 0)) t1)
  | .intModTotalNeg, [t1, s1] =>
    some ([bop .eq (bop .lt s1 (.num 0)) (.bool true)],
      bop .eq (bop .modTotal t1 s1) (bop .modTotal t1 (uop .uminus s1)))
  | .elimGt, [t1, s1] => some ([], bop .eq (bop .gt t1 s1) (uop .not (bop .geq s1 t1)))
  | .elimLt, [t1, s1] => some ([], bop .eq (bop .lt t1 s1) (uop .not (bop .geq t1 s1)))
  | .elimIntGt, [t1, s1] => some ([], bop .eq (bop .gt t1 s1) (bop .geq t1 (intPlus s1 (.num 1))))
  | .elimIntLt, [t1, s1] => some ([], bop .eq (bop .lt t1 s1) (bop .geq s1 (intPlus t1 (.num 1))))
  | .elimLeq, [t1, s1] => some ([], bop .eq (bop .leq t1 s1) (bop .geq s1 t1))
  | .leqNorm, [t1, s1] =>
    some ([], bop .eq (bop .leq t1 s1) (uop .not (bop .geq t1 (intPlus s1 (.num 1)))))
  | .geqTighten, [t1, s1] =>
    some ([], bop .eq (uop .not (bop .geq t1 s1)) (bop .geq s1 (intPlus t1 (.num 1))))
  | .geqNorm1Int, [t1, s1] =>
    some ([], bop .eq (bop .geq t1 s1) (bop .geq (bop .minus t1 s1) (.num 0)))
  | .geqNorm1Real, [t1, s1] =>
    some ([], bop .eq (bop .geq t1 s1) (bop .geq (bop .minus t1 s1) (.rat 0)))
  | .eqElimReal, [t1, s1] =>
    some ([], bop .eq (bop .eq t1 s1) (mkAnd [bop .geq t1 s1, bop .leq t1 s1]))
  | .eqElimInt, [t1, s1] =>
    some ([], bop .eq (bop .eq t1 s1) (mkAnd [bop .geq t1 s1, bop .leq t1 s1]))
  | .toIntElimToReal, [x1] => some ([], bop .eq (uop .toInt (uop .toReal x1)) x1)
  | .modOverMod1, [c1, r1] =>
    some ([isNonzero c1], bop .eq (bop .modTotal (bop .modTotal r1 c1) c1) (bop .modTotal r1 c1))
  | .modOverMod, [c1, ts1, r1, ss1] =>
    (arithModOverModList Γ .plus c1 ts1 r1 ss1).map fun c => ([isNonzero c1], c)
  | .modOverModMult, [c1, ts1, r1, ss1] =>
    (arithModOverModList Γ .times c1 ts1 r1 ss1).map fun c => ([isNonzero c1], c)
  | .intEqConflict, [t1, c1] =>
    some ([isNoInt c1], bop .eq (bop .eq (uop .toReal t1) c1) (.bool false))
  | .intGeqTighten, [t1, c1, cc1] =>
    some ([isNoInt c1, bop .eq cc1 (intPlus (uop .toInt c1) (.num 1))],
      bop .eq (bop .geq (uop .toReal t1) c1) (bop .geq t1 cc1))
  | .divisibleElim, [n1, t1] =>
    some ([isNonzero n1], bop .eq (bop .divisible n1 t1) (bop .eq (bop .modTotal t1 n1) (.num 0)))
  | .absEq, [x1, y1] =>
    some ([], bop .eq (bop .eq (uop .abs x1) (uop .abs y1))
      (bop .or (bop .eq x1 y1) (bop .or (bop .eq x1 (uop .uminus y1)) (.bool false))))
  | .absIntGt, [x1, y1] => some ([], arithAbsGt (.num 0) x1 y1)
  | .absRealGt, [x1, y1] => some ([], arithAbsGt (.rat 0) x1 y1)
  | .geqIteLift, [c1, t1, s1, r1] =>
    some ([], bop .eq (bop .geq (.app (bop .ite c1 t1) s1) r1)
      (.app (bop .ite c1 (bop .geq t1 r1)) (bop .geq s1 r1)))
  | .leqIteLift, [c1, t1, s1, r1] =>
    some ([], bop .eq (bop .leq (.app (bop .ite c1 t1) s1) r1)
      (.app (bop .ite c1 (bop .leq t1 r1)) (bop .leq s1 r1)))
  | .minLt1, [t1, s1] =>
    some ([], bop .eq (bop .leq (.app (bop .ite (bop .lt t1 s1) t1) s1) t1) (.bool true))
  | .minLt2, [t1, s1] =>
    some ([], bop .eq (bop .leq (.app (bop .ite (bop .lt t1 s1) t1) s1) s1) (.bool true))
  | .maxGeq1, [t1, s1] =>
    some ([], bop .eq (bop .geq (.app (bop .ite (bop .geq t1 s1) t1) s1) t1) (.bool true))
  | .maxGeq2, [t1, s1] =>
    some ([], bop .eq (bop .geq (.app (bop .ite (bop .geq t1 s1) t1) s1) s1) (.bool true))
  | _, _ => none

end EthosCpc
