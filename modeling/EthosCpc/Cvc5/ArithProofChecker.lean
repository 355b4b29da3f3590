import EthosCpc.Cvc5.PolyNorm

/-!
# The checkers of the arithmetic rules in cvc5

`ArithProofRuleChecker::checkInternal` of `theory/arith/proof_checker.cpp` and
`ExtProofRuleChecker::checkInternal` of `theory/arith/nl/ext/proof_checker.cpp`.
A rule returns no node where cvc5 returns the null node, stops at an assertion
or reads a child that does not exist.
-/

namespace EthosCpc.Cvc5

variable (Γ : Nat → Ty) (le : Node → Node → Bool)

/-! ## Building nodes -/

/-- `NodeManager::mkConstRealOrInt`, for an integral constant. -/
def mkConstRealOrInt (T : Ty) (z : Int) : Option Node :=
  match T with
  | .int => some (.constInteger z)
  | .real => some (.constRational z)
  | _ => none

def mkAnd : List Node → Node
  | [] => .constBoolean true
  | [F] => F
  | Fs => .app .and Fs

def isZeroConst (n : Node) : Bool := decide (n.rational? = some 0)

/-! ## `ARITH_MULT_POS` and `ARITH_MULT_NEG` -/

/-- `reverseRelationKind`, and `DISTINCT` as it is. -/
def reverseRelationKind : Kind → Option Kind
  | .lt => some .gt
  | .leq => some .geq
  | .equal => some .equal
  | .geq => some .leq
  | .gt => some .lt
  | .distinct => some .distinct
  | _ => none

def isMultRel : Kind → Bool
  | .equal | .distinct | .lt | .leq | .gt | .geq => true
  | _ => false

/-- Multiply the two sides of a relation by a term with the given relation to
zero. -/
def multRel (guard : Kind) (conclude : Kind → Option Kind) (mult : Node) : Node → Option Node
  | .app rel (lhs :: rhs :: rest) =>
    if isMultRel rel then
      (mult.typeOf Γ).bind fun T => (mkConstRealOrInt T 0).bind fun zero =>
        (conclude rel).map fun rel' =>
          .app .implies [mkAnd [.app guard [mult, zero], .app rel (lhs :: rhs :: rest)],
            .app rel' [.app .mult [mult, lhs], .app .mult [mult, rhs]]]
    else none
  | _ => none

/-- `ARITH_MULT_POS`. -/
def checkArithMultPos (children args : List Node) : Option Node :=
  match children, args with
  | [], [mult, F] => multRel Γ .gt some mult F
  | _, _ => none

/-- `ARITH_MULT_NEG`. -/
def checkArithMultNeg (children args : List Node) : Option Node :=
  match children, args with
  | [], [mult, F] => multRel Γ .lt reverseRelationKind mult F
  | _, _ => none

/-! ## Sums of relations -/

/-- The sums built so far: whether a relation was strict, and the summands. -/
structure SumState where
  strict : Bool
  left : List Node
  right : List Node

/-- The relation of the two sums. -/
def SumState.result (s : SumState) : Node :=
  .app (if s.strict then .lt else .leq) [.app .add s.left, .app .add s.right]

/-- One premise of `ARITH_SUM_UB`. -/
def sumUbStep (s : SumState) : Node → Option SumState
  | .app k (l :: r :: _) =>
    match k with
    | .lt => some ⟨true, s.left ++ [l], s.right ++ [r]⟩
    | .leq | .equal => some ⟨s.strict, s.left ++ [l], s.right ++ [r]⟩
    | _ => none
  | _ => none

/-- `ARITH_SUM_UB`. -/
def checkArithSumUb (children : List Node) : Option Node :=
  if children.length < 2 then none
  else (children.foldlM sumUbStep ⟨false, [], []⟩).map SumState.result

/-- May the scalar stand with a relation of these two terms? Real terms need a
real scalar, and an integral scalar of integer terms is an integer. -/
def isScalarType (arg l r : Node) (scalar : Rat) : Option Bool :=
  (arg.typeOf Γ).bind fun T => (l.typeOf Γ).bind fun A => (r.typeOf Γ).map fun B =>
    if A = .real ∨ B = .real then decide (T ≠ .int)
    else !(decide (T = .real) && decide (scalar.den = 1))

/-- The sign check of a premise. Kinds that are no relation pass. -/
def isScalarSign (k : Kind) (scalar : Rat) : Bool :=
  match k with
  | .gt | .geq => decide (¬ 0 < scalar)
  | .leq | .lt => decide (¬ scalar < 0)
  | _ => true

/-- A term with its scalar. -/
def scaled (scalar : Rat) (arg t : Node) : Node := if scalar = 1 then t else .app .mult [arg, t]

/-- One premise of `MACRO_ARITH_SCALE_SUM_UB` with its scalar. -/
def scaleSumUbStep (s : SumState) : Node × Node → Option SumState
  | (.app k (l :: r :: _), arg) =>
    arg.rational?.bind fun scalar =>
      if scalar = 0 then none
      else (isScalarType Γ arg l r scalar).bind fun typed =>
        if typed && isScalarSign k scalar then
          some ⟨s.strict || decide (k = .gt ∨ k = .lt), s.left ++ [scaled scalar arg l],
            s.right ++ [scaled scalar arg r]⟩
        else none
  | _ => none

/-- `MACRO_ARITH_SCALE_SUM_UB`. -/
def checkMacroArithScaleSumUb (children args : List Node) : Option Node :=
  if children.length ≠ args.length ∨ children.length < 2 then none
  else ((children.zip args).foldlM (scaleSumUbStep Γ) ⟨false, [], []⟩).map SumState.result

/-! ## Tightening -/

def leastIntGreaterThan (q : Rat) : Int := ⌊q⌋ + 1

def greatestIntLessThan (q : Rat) : Int := ⌈q⌉ - 1

def intTight (strict nonStrict : Kind) (newBound : Rat → Int) (children : List Node) : Option Node :=
  match children with
  | [.app k (i :: c :: _)] =>
    if (k = strict ∨ k = nonStrict) ∧ i.typeOf Γ = some .int then
      c.rational?.map fun q => .app nonStrict [i, .constInteger (newBound q)]
    else none
  | _ => none

/-- `INT_TIGHT_LB`. -/
def checkIntTightLb (children : List Node) : Option Node :=
  intTight Γ .gt .geq leastIntGreaterThan children

/-- `INT_TIGHT_UB`. -/
def checkIntTightUb (children : List Node) : Option Node :=
  intTight Γ .lt .leq greatestIntLessThan children

/-! ## Trichotomy -/

def negateProofLiteral : Node → Option Node
  | .app .gt [a, b] => some (.app .leq [a, b])
  | .app .lt [a, b] => some (.app .geq [a, b])
  | .app .leq [a, b] => some (.app .gt [a, b])
  | .app .geq [a, b] => some (.app .lt [a, b])
  | .app .equal cs => some (.app .not [.app .equal cs])
  | .app .not [n] => some n
  | _ => none

/-- The one of the three relations that is neither of two kinds. -/
def thirdRelation (k k' : Kind) : Option Kind :=
  match [Kind.equal, .gt, .lt].filter fun r => decide (r ≠ k ∧ r ≠ k') with
  | [r] => some r
  | _ => none

/-- `ARITH_TRICHOTOMY`. -/
def checkArithTrichotomy (children : List Node) : Option Node :=
  match children with
  | F :: G :: _ =>
    (negateProofLiteral F).bind fun a => (negateProofLiteral G).bind fun b =>
      match a, b with
      | .app k (a0 :: a1 :: _), .app k' (b0 :: b1 :: _) =>
        if a0 = b0 ∧ a1 = b1 then (thirdRelation k k').map fun r => .app r [a0, a1] else none
      | _, _ => none
  | _ => none

/-! ## Polynomial normalization -/

/-- `ARITH_POLY_NORM`. -/
def checkArithPolyNorm (children args : List Node) : Option Node :=
  match children, args with
  | [], [.app .equal (a :: b :: rest)] =>
    (a.typeOf Γ).bind fun T =>
      if T.isArithType then
        (isArithPolyNorm Γ le a b).bind fun same =>
          if same then some (.app .equal (a :: b :: rest)) else none
      else none
  | _, _ => none

/-- The term below a `TO_REAL`. -/
def stripToReal : Node → Node
  | .app .toReal (n :: _) => n
  | n => n

/-- The check of the two factors, made only when both are constants. -/
def factorsOk (k : Kind) (cx cy : Node) : Bool :=
  match cx.rational?, cy.rational? with
  | some c1, some c2 =>
    !decide (c1 = 0 ∨ c2 = 0) &&
      (decide (k = .equal) || decide (SignType.sign c1 = SignType.sign c2))
  | _, _ => true

/-- The relations of `ARITH_POLY_NORM_REL`. -/
def isPolyNormRel : Kind → Bool
  | .lt | .leq | .equal | .gt | .geq => true
  | _ => false

/-- `ARITH_POLY_NORM_REL`. -/
def checkArithPolyNormRel (children args : List Node) : Option Node :=
  match children, args with
  | [.app .equal (.app .mult (cx :: x :: _) :: .app .mult (cy :: y :: _) :: _)],
      [.app .equal (.app k as :: rest)] =>
      if isPolyNormRel k then
        match stripToReal x, stripToReal y with
        | .app .sub (x1 :: x2 :: _), .app .sub (y1 :: y2 :: _) =>
          if factorsOk k cx cy then
            let ret := Node.app .equal [.app k [x1, x2], .app k [y1, y2]]
            if ret = .app .equal (.app k as :: rest) then some ret else none
          else none
        | _, _ => none
      else none
  | _, _ => none

/-! ## `ARITH_MULT_SIGN` -/

/-- Drop repetitions of the variable before. -/
def uniqueVars : List Node → List Node
  | [] => []
  | [v] => [v]
  | v :: w :: vs => if v = w then uniqueVars (w :: vs) else v :: uniqueVars (w :: vs)

def premiseSign : Node → Option (Node × Int)
  | .app .not [.app .equal [v, z]] => if isZeroConst z then some (v, 0) else none
  | .app .lt [v, z] => if isZeroConst z then some (v, -1) else none
  | .app .gt [v, z] => if isZeroConst z then some (v, 1) else none
  | _ => none

/-- The map `signs`, from the premises in the order of the variables. -/
def premiseSigns : List Node → List Node → Option (List (Node × Int))
  | [], [] => some []
  | v :: vars, F :: premise =>
    (premiseSign F).bind fun s =>
      if s.1 = v ∧ v ∉ vars then (premiseSigns vars premise).map (s :: ·) else none
  | _, _ => none

/-- The sign of a monomial: a variable with an even exponent has to be not zero,
one with an odd exponent has to have a sign. -/
def monomialSign (mon : List Node) : List (Node × Int) → Option Int
  | [] => some 1
  | s :: signs =>
    if mon.count s.1 % 2 = 0 then if s.2 = 0 then monomialSign mon signs else none
    else if s.2 ≠ 0 then (monomialSign mon signs).map (s.2 * ·) else none

/-- The premises that the first argument stands for. -/
def premiseList : Node → List Node
  | .app .and Fs => Fs
  | F => [F]

/-- `ARITH_MULT_SIGN`. -/
def checkArithMultSign (children args : List Node) : Option Node :=
  match children, args with
  | [], [F, .app k vs] =>
    if k = .mult ∨ k = .nonlinearMult then
      (premiseSigns (uniqueVars vs) (premiseList F)).bind fun signs =>
      (monomialSign vs signs).bind fun sign =>
      ((Node.app k vs).typeOf Γ).bind fun T => (mkConstRealOrInt T 0).map fun zero =>
        .app .implies [mkAnd (premiseList F),
          .app (if sign < 0 then .lt else .gt) [.app k vs, zero]]
    else none
  | _, _ => none

/-! ## `ARITH_MULT_TANGENT` -/

/-- Does the node have the type `Int` or `Real`? -/
def isRealOrInt (n : Node) : Bool := (n.typeOf Γ).elim false Ty.isArithType

/-- `ARITH_MULT_TANGENT`. -/
def checkArithMultTangent (children args : List Node) : Option Node :=
  match children, args with
  | [], [x, y, a, b, .constBoolean sgn] =>
    if isRealOrInt Γ x && isRealOrInt Γ y && isRealOrInt Γ a && isRealOrInt Γ b then
      let t := Node.app .nonlinearMult [x, y]
      let tplane := Node.app .sub [.app .add [.app .mult [b, x], .app .mult [a, y]],
        .app .mult [a, b]]
      some (.app .equal [.app (if sgn then .geq else .leq) [t, tplane],
        .app .or [.app .and [.app .leq [x, a], .app (if sgn then .leq else .geq) [y, b]],
          .app .and [.app .geq [x, a], .app (if sgn then .geq else .leq) [y, b]]]])
    else none
  | _, _ => none

/-! ## `ARITH_MULT_ABS_COMPARISON` -/

/-- `ArithNlCompareProofGenerator::isDisequalZero`. -/
def isDisequalZero : Node → Option Node
  | .app .not (.app .equal (v :: z :: _) :: _) => if isZeroConst z then some v else none
  | _ => none

/-- `ArithNlCompareProofGenerator::mkProduct`. -/
def mkProduct : List Node → Node
  | [n] => n
  | ns => .app .nonlinearMult ns

/-- `ArithNlCompareProofGenerator::mkLit`. -/
def mkLit (k : Kind) (a b : Node) : Option Node :=
  if a.typeOf Γ = b.typeOf Γ then some (.app k [.app .abs [a], .app .abs [b]]) else none

/-- A premise: its literal, and the term that its guard says to be not zero. -/
def splitGuard (c : Node) : Option (Node × Option Node) :=
  match c with
  | .app .and cs =>
    match cs with
    | [lit, guard] => (isDisequalZero guard).map fun v => (lit, some v)
    | _ => none
  | _ => some (c, none)

/-- The check of the kind of a literal. -/
def comparisonOk (k : Kind) (lit : Node) (zeroGuard : Option Node) : Bool :=
  match k, lit with
  | .equal, .app .equal _ => true
  | .gt, .app .gt _ => true
  | .gt, .app .equal (.app .abs (v :: _) :: _) => decide (zeroGuard = some v)
  | _, _ => false

/-- The factor of one side: a one takes the type of the other side. -/
def absFactor (t other : Node) : Option Node :=
  if t.isConst then
    if t.rational? = some 1 ∧ other.isConst = false then
      (other.typeOf Γ).bind fun T => mkConstRealOrInt T 1
    else none
  else some t

/-- The factors that a premise adds to the two products. -/
def absFactors (k : Kind) (c : Node) : Option (Node × Node) :=
  (splitGuard c).bind fun split =>
    if comparisonOk k split.1 split.2 then
      match split.1 with
      | .app _ (.app .abs (t :: _) :: .app .abs (s :: _) :: _) =>
        (absFactor Γ t s).bind fun l => (absFactor Γ s t).map fun r => (l, r)
      | _ => none
    else none

/-- `ARITH_MULT_ABS_COMPARISON`. -/
def checkArithMultAbsComparison (children args : List Node) : Option Node :=
  match children, args with
  | .app k cs :: rest, [] =>
    ((Node.app k cs :: rest).mapM (absFactors Γ k)).bind fun factors =>
      mkLit Γ k (mkProduct (factors.map Prod.fst)) (mkProduct (factors.map Prod.snd))
  | _, _ => none

/-! ## `checkInternal` -/

/-- The rules. -/
inductive ArithRule
  | arithMultPos | arithMultNeg | arithSumUb | macroArithScaleSumUb | intTightLb | intTightUb
  | arithTrichotomy | arithPolyNorm | arithPolyNormRel | arithMultSign | arithMultTangent
  | arithMultAbsComparison
  deriving DecidableEq, Repr

/-- `checkInternal`. -/
def checkArith (rule : ArithRule) (children args : List Node) : Option Node :=
  match rule with
  | .arithMultPos => checkArithMultPos Γ children args
  | .arithMultNeg => checkArithMultNeg Γ children args
  | .arithSumUb => checkArithSumUb children
  | .macroArithScaleSumUb => checkMacroArithScaleSumUb Γ children args
  | .intTightLb => checkIntTightLb Γ children
  | .intTightUb => checkIntTightUb Γ children
  | .arithTrichotomy => checkArithTrichotomy children
  | .arithPolyNorm => checkArithPolyNorm Γ le children args
  | .arithPolyNormRel => checkArithPolyNormRel children args
  | .arithMultSign => checkArithMultSign Γ children args
  | .arithMultTangent => checkArithMultTangent Γ children args
  | .arithMultAbsComparison => checkArithMultAbsComparison Γ children args

end EthosCpc.Cvc5
