import EthosCpc.Cvc5.EntailPoly

/-!
# Arithmetic entailment for strings in cvc5

`theory/strings/arith_entail.cpp`, without a rewriter.  A test runs in a state,
the caches of approximations and of constant bounds that earlier tests have
filled, and an exception or a failed assertion is `none`.

`check`, `findApprox` and `getArithApproximations` call each other.  The middle
functions take the test that they call as a parameter `chk`, and `check` ties
the knot with a number of nested calls; the worklist of approximations gets the
same number.
-/

namespace EthosCpc.Cvc5.Entail

open ArithMSum

structure Caches where
  /-- `d_approxCache`. -/
  approx : Node → Option (Option Node)
  /-- `d_approxCacheSimple`. -/
  approxSimple : Node → Option (Option Node)
  /-- `ArithEntailConstantBoundLower`. -/
  lower : Node → Option (Option Node)
  /-- `ArithEntailConstantBoundUpper`. -/
  upper : Node → Option (Option Node)

namespace Caches

/-- The caches before the first test. -/
def empty : Caches := ⟨fun _ => none, fun _ => none, fun _ => none, fun _ => none⟩

def findApprox (c : Caches) (isSimple : Bool) : Node → Option (Option Node) :=
  if isSimple then c.approxSimple else c.approx

/-- Remember the result of `findApprox`. -/
def setApprox (c : Caches) (isSimple : Bool) (a : Node) (ret : Option Node) : Caches :=
  if isSimple then { c with approxSimple := Function.update c.approxSimple a (some ret) }
  else { c with approx := Function.update c.approx a (some ret) }

/-- `getConstantBoundCache`. -/
def getBound (c : Caches) (isLower : Bool) : Node → Option (Option Node) :=
  if isLower then c.lower else c.upper

/-- `setConstantBoundCache`. -/
def setBound (c : Caches) (isLower : Bool) (a : Node) (ret : Option Node) : Caches :=
  if isLower then { c with lower := Function.update c.lower a (some ret) }
  else { c with upper := Function.update c.upper a (some ret) }

end Caches

abbrev M := StateT Caches Option

/-- A computation that leaves the caches. -/
def ofOption {α : Type} (o : Option α) : M α := StateT.lift o

/-- A test `a >= 0`, or `a > 0` when strict, with `isSimple`. -/
abbrev Check := Node → Bool → Bool → M Bool

variable (Γ : Nat → Ty) (le : Node → Node → Bool) (recApprox : Bool)

abbrev mkLen (s : Node) : Node := .app .strLen [s]

/-- The difference of two nodes. -/
abbrev mkSub (a b : Node) : Node := .app .sub [a, b]

/-! ## Tests without approximations -/

mutual

def checkSimple : Node → Bool
  | .app .strLen _ => true
  | .app .add cs | .app .mult cs => checkSimples cs
  | n => n.rational?.any fun q => decide (0 ≤ q)

/-- All children pass the test. -/
def checkSimples : List Node → Bool
  | [] => true
  | c :: cs => checkSimple c && checkSimples cs

end

/-! ## Approximations of a term -/

section Approximations

variable (chk : Check) (isSimple : Bool)

/-- `check(a, b, strict, isSimple)`. -/
def checkGeq (a b : Node) (strict isSimple : Bool) : M Bool :=
  if a = b then pure (!strict) else chk (mkSub a b) strict isSimple

def both (p q : M Bool) : M Bool := do
  if ← p then q else pure false

/-- Two tests, the second only when the first fails. -/
def either (p q : M Bool) : M Bool := do
  if ← p then pure true else q

/-- Approximations of `(str.len (str.substr x n m))`. -/
def approxSubstr (isOver : Bool) (x n m : Node) : M (List Node) :=
  if isOver then do
    let bm ← chk m false isSimple
    let bn ← checkGeq chk (mkLen x) n false isSimple
    pure ((if bm then [m] else []) ++ [if bn then mkSub (mkLen x) n else mkLen x])
  else do
    let npm := Node.app .add [n, m]
    let bm ← both (chk n false isSimple) (checkGeq chk (mkLen x) npm false isSimple)
    let bn ← both (chk n false isSimple) (checkGeq chk npm (mkLen x) false isSimple)
    pure ((if bm then [m] else []) ++ if bn then [mkSub (mkLen x) n] else [])

/-- Approximations of `(str.len (str.replace x y z))`. -/
def approxReplace (isOver : Bool) (x y z : Node) : M (List Node) :=
  if isOver then do
    let b ← checkGeq chk (mkLen y) (mkLen z) false isSimple
    pure [if b then mkLen x else .app .add [mkLen x, mkLen z]]
  else do
    let b ← either (checkGeq chk (mkLen z) (mkLen y) false isSimple)
      (checkGeq chk (mkLen z) (mkLen x) false isSimple)
    pure [if b then mkLen x else mkSub (mkLen x) (mkLen y)]

/-- Approximations of `(str.len (str.from_int x))`. -/
def approxItos (isOver : Bool) (x : Node) : M (List Node) := do
  let b ← chk x false isSimple
  if b then
    if isOver then do
      let bs ← chk x true isSimple
      pure [if bs then x else .app .add [.constInteger 1, x]]
    else pure [.constInteger 1]
  else pure []

/-- Approximations of `(str.indexof x y n)`. -/
def approxIndexof (isOver : Bool) (x y : Node) : M (List Node) :=
  if isOver then do
    let b ← checkGeq chk (mkLen x) (mkLen y) false isSimple
    pure [if b then mkSub (mkLen x) (mkLen y) else mkLen x]
  else pure [.constInteger (-1)]

def getArithApproximations (isOver : Bool) : Node → M (List Node)
  | .app .mult [c, v] =>
    if c.isConst then do
      let q ← ofOption c.rational?
      let approx ← getArithApproximations (if q < 0 then !isOver else isOver) v
      pure (approx.map fun aa => .app .mult [c, aa])
    else pure []
  | .app .strLen [.app .strSubstr [x, n, m]] => approxSubstr chk isSimple isOver x n m
  | .app .strLen [.app .strReplace [x, y, z]] => approxReplace chk isSimple isOver x y z
  | .app .strLen [.app .strItos [x]] => approxItos chk isSimple isOver x
  | .app .strIndexof [x, y, _] => approxIndexof chk isSimple isOver x y
  | .app .strStoi [_] => pure (if isOver then [] else [.constInteger (-1)])
  | _ => pure []

/-- Approximate a variable of a monomial as far as possible: a stack of terms to
process, the terms visited and the approximations found. -/
def closeApprox (isOver : Bool) : Nat → List Node → List Node → List Node → M (List Node)
  | _, [], _, approx => pure approx
  | 0, _ :: _, _, _ => ofOption none
  | fuel + 1, top :: rest, visited, approx => do
      let curr ← ofOption (getPolyNorm Γ le top)
      if curr ∈ visited then closeApprox isOver fuel rest visited approx
      else do
        let currApprox ← getArithApproximations chk isSimple isOver curr
        if currApprox = [] then
          closeApprox isOver fuel rest (curr :: visited) (approx ++ [curr])
        else if isSimple then closeApprox isOver fuel rest (curr :: visited) currApprox
        else closeApprox isOver fuel (currApprox.reverse ++ rest) (curr :: visited) approx

/-- The variables of a monomial sum and their approximations: the summands that
are fixed, the variables with a choice, the substitution so far, and whether
anything has changed. -/
structure Setup where
  fixedSum : List Node
  choices : List (Node × Option Node × List Node)
  approxMap : List (Node × Node)
  changed : Bool

/-- Find the approximations of all monomials. -/
def setup (fuel : Nat) : MSum → Setup → M Setup
  | [], s => pure s
  | (none, c) :: ms, s =>
    setup fuel ms { s with fixedSum := s.fixedSum ++ [c.getD (.constInteger 1)] }
  | (some v, c) :: ms, s => do
      let q ← ofOption (coeff c)
      let approx ← closeApprox Γ le chk isSimple (decide (q < 0)) fuel [v] [] []
      match approx with
      | [] => ofOption none
      | [aa] => do
          let mn ← ofOption (mkCoeffTerm Γ c aa)
          setup fuel ms { s with
            fixedSum := s.fixedSum ++ [mn]
            approxMap := if v = aa then s.approxMap else s.approxMap ++ [(v, aa)]
            changed := s.changed || decide (v ≠ aa) }
      | approx => setup fuel ms { s with
            choices := s.choices ++ [(v, c, approx)], changed := true }

end Approximations

/-! ## The choice of approximations -/

/-- How often the monomials of an approximation help to cancel a monomial of the
fixed sum, and how many obligations they add. -/
def counts (msumAar : MSum) (cr : Rat) : MSum → Option (Nat × Nat)
  | [] => some (0, 0)
  | (ti, ci) :: ms =>
    (coeff ci).bind fun ci => (counts msumAar cr ms).bind fun (helps, adds) =>
    match msumAar.lookup ti with
    | some c => (coeff c).map fun c =>
      if c = 0 then (helps, adds + if cr * ci < 0 then 1 else 0)
      else if SignType.sign c ≠ SignType.sign (cr * ci) then
        (helps + 1, adds + if c + cr * ci < 0 then 1 else 0)
      else (helps, adds)
    | none => some (helps, adds + if cr * ci < 0 then 1 else 0)

/-- The score of an approximation. -/
def score (msumAar : MSum) (cr : Option Node) (aa : Node) : Option Nat :=
  (getPolyNorm Γ le aa).bind fun aar => (getMonomialSum le aar).bind fun aam =>
  (coeff cr).bind fun cr => (counts msumAar cr aam).map fun (helps, adds) =>
    (if 0 < adds then 0 else 2) + if 0 < helps then 1 else 0

def bestApprox (msumAar : MSum) (cr : Option Node) : List Node → Node → Nat → Option Node
  | [], vapprox, _ => some vapprox
  | aa :: aas, vapprox, maxScore =>
    (score Γ le msumAar cr aa).bind fun s =>
      if maxScore < s then bestApprox msumAar cr aas aa s
      else bestApprox msumAar cr aas vapprox maxScore

def mkSum : List Node → Node
  | [] => .constInteger 0
  | [t] => t
  | ts => .app .add ts

/-- Incorporate the variables with a choice one at a time. The inner `none` is
the null node. -/
def resolve : List (Node × Option Node × List Node) → Node → MSum → List (Node × Node) →
    Option (Option (Node × List (Node × Node)))
  | [], aar, _, approxMap => some (some (aar, approxMap))
  | (_, _, []) :: _, _, _, _ => none
  | (v, c, aa :: aas) :: choices, aar, msumAar, approxMap =>
    (score Γ le msumAar c aa).bind fun s => (bestApprox Γ le msumAar c aas aa s).bind fun vapprox =>
    (mkCoeffTerm Γ c vapprox).bind fun mn => (getPolyNorm Γ le (.app .add [aar, mn])).bind fun aar =>
    match getMonomialSum le aar with
    | none => some none
    | some msumAar => resolve choices aar msumAar (approxMap ++ [(v, vapprox)])

/-- The kinds below which an arithmetic substitution goes. -/
def shouldTraverse : Kind → Bool
  | .equal | .geq | .not | .add | .sub | .neg | .mult | .nonlinearMult | .toReal | .division
  | .divisionTotal => true
  | _ => false

mutual

def applyArith (subs : List (Node × Node)) : Node → Node
  | .app k ds =>
    match subs.lookup (.app k ds) with
    | some s => s
    | none => if shouldTraverse k then .app k (applyAriths subs ds) else .app k ds
  | n => (subs.lookup n).getD n

/-- The children after the substitution. -/
def applyAriths (subs : List (Node × Node)) : List Node → List Node
  | [] => []
  | c :: cs => applyArith subs c :: applyAriths subs cs

end

/-! ## The test -/

def findApproxInternal (fuel : Nat) (chk : Check) (ar : Node) (isSimple : Bool) :
    M (Option Node) := do
  let isSimple := isSimple || !recApprox
  match getMonomialSum le ar with
  | none => pure none
  | some msum => do
      let s ← setup Γ le chk isSimple fuel msum ⟨[], [], [], false⟩
      if s.changed then do
        let aar ← ofOption (getPolyNorm Γ le (mkSum s.fixedSum))
        let r ← ofOption (
          if s.choices = [] then some (some (aar, s.approxMap))
          else match getMonomialSum le aar with
            | none => some none
            | some msumAar => resolve Γ le s.choices aar msumAar s.approxMap)
        match r with
        | none => pure none
        | some (aar, approxMap) =>
          if aar = ar then pure none
          else do
            if ← chk aar false isSimple then pure (some (applyArith approxMap ar))
            else pure none
      else pure none

def findApprox (fuel : Nat) (chk : Check) (ar : Node) (isSimple : Bool) : M (Option Node) := do
  let c ← get
  match c.findApprox isSimple ar with
  | some ret => pure ret
  | none => do
      let ret ←
        if checkSimple ar then pure (some ar)
        else findApproxInternal Γ le recApprox fuel chk ar isSimple
      modify fun c => c.setApprox isSimple ar ret
      pure ret

/-- `ArithEntail::check`, with the test that the nested calls use. -/
def checkWith (fuel : Nat) (chk : Check) (a : Node) (strict isSimple : Bool) : M Bool :=
  if a.isConst then
    ofOption (a.rational?.map fun q => if strict then decide (0 < q) else decide (0 ≤ q))
  else
    let ar := if strict then mkSub a (.constInteger 1) else a
    if isSimple then ofOption ((getPolyNorm Γ le ar).map checkSimple)
    else do
      let ar ← ofOption (rewriteArith Γ le ar)
      let ara ← findApprox Γ le recApprox fuel chk ar isSimple
      pure ara.isSome

/-- `ArithEntail::check`, for at most the given number of nested calls. -/
def check : Nat → Check
  | 0 => fun _ _ _ => ofOption none
  | fuel + 1 => checkWith Γ le recApprox fuel (check fuel)

/-! ## Tests with an assumption -/

mutual

/-- The candidates of an equation: its arithmetic variables and lengths. -/
def candVars : Node → List Node
  | .app .add cs | .app .mult cs | .app .sub cs | .app .equal cs => candVarsList cs
  | .app .strLen cs => [.app .strLen cs]
  | .var n => if (Γ n).isArithType then [.var n] else []
  | _ => []

/-- The candidates of the children. -/
def candVarsList : List Node → List Node
  | [] => []
  | c :: cs => candVars c ++ candVarsList cs

end

mutual

/-- The first candidate in a node, in the order of a stack of nodes. -/
def findCandidate (cands : List Node) : Node → Option Node
  | .app .applyUf [] => if .app .applyUf [] ∈ cands then some (.app .applyUf []) else none
  | .app .applyUf (f :: cs) =>
    if .app .applyUf (f :: cs) ∈ cands then some (.app .applyUf (f :: cs))
    else findCandidates cands cs
  | .app k cs => if .app k cs ∈ cands then some (.app k cs) else findCandidates cands cs
  | n => if n ∈ cands then some n else none

/-- The first candidate in the children, from the last of them. -/
def findCandidates (cands : List Node) : List Node → Option Node
  | [] => none
  | c :: cs =>
    match findCandidates cands cs with
    | some v => some v
    | none => findCandidate cands c

end

mutual

def substitute (v s : Node) : Node → Node
  | .app k ds => if .app k ds = v then s else .app k (substituteList v s ds)
  | n => if n = v then s else n

/-- The children after the substitution. -/
def substituteList (v s : Node) : List Node → List Node
  | [] => []
  | c :: cs => substitute v s c :: substituteList v s cs

end

/-- The term that is tested in place of `a` under the assumption `x = y`. -/
def eqAssumptionTerm (x y a : Node) : Option Node :=
  (findCandidate (candVars Γ (.app .equal [x, y])) a).bind fun v =>
    (solveEqualityFor Γ le x y v).map fun solution => substitute v solution a

/-- `ArithEntail::checkWithEqAssumption`, for the assumption `x = y`. -/
def checkWithEqAssumption (fuel : Nat) (x y a : Node) (strict : Bool) : M Bool :=
  match eqAssumptionTerm Γ le x y a with
  | none => pure false
  | some a => check Γ le recApprox fuel a strict false

/-- An assumption as an equation: an inequality `x >= y` is `x = y + (str.len s)`
for a fresh variable `s`. A constant is the value of the assumption. -/
def eqAssumption (slackVal : Nat) : Node → Option (Bool ⊕ (Node × Node))
  | .constBoolean b => some (.inl b)
  | .app .equal [x, y] => some (.inr (x, y))
  | .app .geq [x, y] => withSlack x y
  | .app .not [.app .geq [s, t]] => withSlack (mkSub t (.constInteger 1)) s
  | _ => none
where
  /-- The equation for `x >= y`. -/
  withSlack (x y : Node) : Option (Bool ⊕ (Node × Node)) :=
    let sleny := Node.app .add [y, mkLen (.var slackVal)]
    (rewriteArith Γ le (mkSub x sleny)).bind fun rr =>
      if rr.isConst then rr.rational?.map fun q => .inl (decide (q = 0))
      else some (.inr (x, sleny))

def checkWithAssumption (fuel slackVal : Nat) (assumption a b : Node) (strict : Bool) : M Bool := do
  let diff := mkSub a b
  match ← ofOption (eqAssumption Γ le slackVal assumption) with
  | .inl true => check Γ le recApprox fuel diff strict false
  | .inl false => pure true
  | .inr (x, y) => checkWithEqAssumption Γ le recApprox fuel x y diff strict

/-! ## Constant bounds -/

/-- A bound that is looked up before it is computed. -/
def cachedBound (isLower : Bool) (a : Node) (compute : M (Option Node)) : M (Option Node) := do
  let c ← get
  match c.getBound isLower a with
  | some ret => pure ret
  | none => do
      let ret ← compute
      modify fun c => c.setBound isLower a ret
      pure ret

/-- The bound of a sum or a product from the bounds of its children. -/
def combineBounds (k : Kind) : Option (List Node) → M (Option Node)
  | none => pure none
  | some [] => pure (some (.constInteger 0))
  | some [c] => pure (some c)
  | some cs => some <$> ofOption (rewriteArith Γ le (.app k cs))

mutual

def getConstantBound (isLower : Bool) : Node → M (Option Node)
  | .app .strLen cs =>
    cachedBound isLower (.app .strLen cs) (pure (if isLower then some (.constInteger 0) else none))
  | .app k cs =>
    cachedBound isLower (.app k cs)
      (if k = .add ∨ k = .mult then do combineBounds Γ le k (← boundChildren isLower k cs)
      else pure none)
  | n => cachedBound isLower n (pure (if n.isConst then some n else none))

/-- The bounds of the children that are not zero, unless one of them has none
or the bound of a factor cannot be used. -/
def boundChildren (isLower : Bool) (k : Kind) : List Node → M (Option (List Node))
  | [] => pure (some [])
  | c :: cs => do
      match ← getConstantBound isLower c with
      | none => pure none
      | some ac => do
          let q ← ofOption ac.rational?
          if q = 0 then
            if k = .mult then pure none else boundChildren isLower k cs
          else if k = .mult ∧ decide (0 < q) ≠ isLower then pure none
          else do
            let acs ← boundChildren isLower k cs
            pure (acs.map (ac :: ·))

end

mutual

def getConstantBoundLength (isLower : Bool) : Node → M (Option Node)
  | .app .strConcat cs => cachedBound isLower (.app .strConcat cs) do
      let sum ← boundComponents isLower 0 cs
      let ret := sum.bind fun sum =>
        if isLower ∧ sum = 0 then none else some (Node.constInteger sum.num)
      pure (if ret.isNone && isLower then some (.constInteger 0) else ret)
  | .app k cs => cachedBound isLower (.app k cs)
      (pure (if k = .seqUnit ∨ k = .strUnit then some (.constInteger 1)
        else if isLower then some (.constInteger 0) else none))
  | n => cachedBound isLower n do
      if n.isConst then
        let len ← ofOption (getLength n)
        pure (some (.constInteger len))
      else pure (if isLower then some (.constInteger 0) else none)

def boundComponents (isLower : Bool) (sum : Rat) : List Node → M (Option Rat)
  | [] => pure (some sum)
  | c :: cs => do
      match ← getConstantBoundLength isLower c with
      | none => if isLower then boundComponents isLower sum cs else pure none
      | some b => do
          let q ← ofOption b.rational?
          boundComponents isLower (sum + q) cs

end

end EthosCpc.Cvc5.Entail
