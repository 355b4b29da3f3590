import Mathlib.Algebra.BigOperators.Group.List.Basic
import Mathlib.Algebra.Ring.Int.Defs
import Mathlib.Algebra.GroupWithZero.Nat

/-!
# Translating bit-vectors to integers

The class `IntBlaster` and the functions of `IAndUtils` it uses.  A bit-vector is
translated to the integer it denotes as an unsigned number, every operator to integer
arithmetic, and the translation comes with lemmas: the ranges of the integers that stand
for bit-vector variables and for applications of functions, and in one of the modes the
bits of conjunctions.  The sets of nodes that already have such a lemma only keep a
lemma from being added twice, and are left out, as are quantified formulas.

`translate` returns nothing where the code throws an exception or fails an assertion.
-/

namespace EthosCpc.Cvc5.IntBlaster

inductive TypeNode
  | boolean
  | integer
  | bitVector (w : Nat)
  | other (s : Nat)
deriving DecidableEq

inductive Kind
  | bitvectorAdd | bitvectorMult | bitvectorAnd | bitvectorOr | bitvectorXor | bitvectorConcat
  | bitvectorUdiv | bitvectorUrem | bitvectorShl | bitvectorLshr | bitvectorAshr
  | bitvectorNot | bitvectorNeg
  | bitvectorUlt | bitvectorUle | bitvectorUgt | bitvectorUge | bitvectorSlt
  | bitvectorUltbv | bitvectorSltbv | bitvectorComp
  | bitvectorUaddo | bitvectorSaddo | bitvectorUmulo | bitvectorSmulo | bitvectorUsubo
  | bitvectorSsubo
  | bitvectorIte
  | bitvectorZeroExtend (amount : Nat) | bitvectorSignExtend (amount : Nat)
  | bitvectorExtract (high low : Nat)
  | bitvectorUbvToInt | intToBitvector (size : Nat)
  | equal | ite | not | and | or | xor | implies
  | add | mult | sub | neg | lt | leq | gt | geq
  | intsDivisionTotal | intsModulusTotal | pow | pow2 | iand (size : Nat)
  | applyUf (f : Nat) | applyIntUf (f : Nat)
  | other (s : Nat)
deriving DecidableEq

/-- Nodes; `purify n` is the skolem that stands for the integer term `n`, and `applyIntUf f` the
application of the skolem function `BV_TO_INT_UF` for `f`. -/
inductive Node
  | boolVar (x : Nat)
  | intVar (x : Nat)
  | bvVar (x w : Nat)
  | otherVar (s x : Nat)
  | constBool (b : Bool)
  | constInt (z : Int)
  | constBV (w : Nat) (x : BitVec w)
  | purify (n : Node)
  | app (k : Kind) (cs : List Node)

inductive Value
  | bool (b : Bool)
  | int (z : Int)
  | bv (w : Nat) (x : BitVec w)
  | other (s x : Nat)
deriving DecidableEq

def Value.type : Value → TypeNode
  | .bool _ => .boolean
  | .int _ => .integer
  | .bv w _ => .bitVector w
  | .other s _ => .other s

def TypeNode.translated : TypeNode → TypeNode
  | .bitVector _ => .integer
  | t => t

def TypeNode.Valid : TypeNode → Prop
  | .bitVector w => 0 < w
  | _ => True

/-- The types of the function symbols, and the operators of other theories. -/
structure Ops where
  argTypes : Nat → List TypeNode
  rangeType : Nat → TypeNode
  typeOf : Nat → List TypeNode → Option TypeNode
  value : Nat → List Value → Option Value
  rangeType_valid : ∀ f, (rangeType f).Valid
  typeOf_valid : ∀ s ts T, typeOf s ts = some T → T.Valid
  value_of_typeOf : ∀ s vs T, typeOf s (vs.map Value.type) = some T →
    ∃ v, value s vs = some v ∧ v.type = T

/-! ## The operators -/

def bvOperator? : Kind → Option ((w : Nat) → BitVec w → BitVec w → BitVec w)
  | .bitvectorAdd => some fun _ x y => x + y
  | .bitvectorMult => some fun _ x y => x * y
  | .bitvectorAnd => some fun _ x y => x &&& y
  | .bitvectorOr => some fun _ x y => x ||| y
  | .bitvectorXor => some fun _ x y => x ^^^ y
  | .bitvectorUdiv => some fun _ x y => x.smtUDiv y
  | .bitvectorUrem => some fun _ x y => x % y
  | .bitvectorShl => some fun _ x y => x <<< y.toNat
  | .bitvectorLshr => some fun _ x y => x >>> y.toNat
  | .bitvectorAshr => some fun _ x y => x.sshiftRight y.toNat
  | _ => none

def bvPredicate? : Kind → Option ((w : Nat) → BitVec w → BitVec w → Bool)
  | .bitvectorUlt => some fun _ x y => x.ult y
  | .bitvectorUle => some fun _ x y => x.ule y
  | .bitvectorUgt => some fun _ x y => y.ult x
  | .bitvectorUge => some fun _ x y => y.ule x
  | .bitvectorSlt => some fun _ x y => x.slt y
  | .bitvectorUaddo => some fun _ x y => x.uaddOverflow y
  | .bitvectorSaddo => some fun _ x y => x.saddOverflow y
  | .bitvectorUmulo => some fun _ x y => x.umulOverflow y
  | .bitvectorSmulo => some fun _ x y => x.smulOverflow y
  | .bitvectorUsubo => some fun _ x y => x.usubOverflow y
  | .bitvectorSsubo => some fun _ x y => x.ssubOverflow y
  | _ => none

def bvBitPredicate? : Kind → Option ((w : Nat) → BitVec w → BitVec w → Bool)
  | .bitvectorUltbv => some fun _ x y => x.ult y
  | .bitvectorSltbv => some fun _ x y => x.slt y
  | .bitvectorComp => some fun _ x y => decide (x = y)
  | _ => none

def binaryType (k : Kind) : TypeNode → TypeNode → Option TypeNode
  | .bitVector w, .bitVector w' =>
    if k = .bitvectorConcat then some (.bitVector (w + w'))
    else if w ≠ w' then none
    else if (bvOperator? k).isSome then some (.bitVector w)
    else if (bvPredicate? k).isSome then some .boolean
    else if (bvBitPredicate? k).isSome then some (.bitVector 1)
    else none
  | _, _ => none

def binaryValue (k : Kind) : Value → Value → Option Value
  | .bv w x, .bv w' y =>
    if k = .bitvectorConcat then some (.bv (w + w') (x ++ y))
    else if h : w' = w then
      match bvOperator? k, bvPredicate? k, bvBitPredicate? k with
      | some f, _, _ => some (.bv w (f w x (y.cast h)))
      | none, some p, _ => some (.bool (p w x (y.cast h)))
      | none, none, some p => some (.bv 1 (BitVec.ofBool (p w x (y.cast h))))
      | none, none, none => none
    else none
  | _, _ => none

/-- The operators with any number of children, from two on. -/
def chained : Kind → Bool
  | .bitvectorAdd | .bitvectorMult | .bitvectorAnd | .bitvectorOr | .bitvectorXor
  | .bitvectorConcat => true
  | _ => false

/-- The operators on bit-vectors that take two of them, or more. -/
def chainType (k : Kind) : List TypeNode → Option TypeNode
  | [t, t'] => binaryType k t t'
  | t :: t' :: ts => if chained k then (t' :: ts).foldlM (binaryType k) t else none
  | _ => none

def fixedType (args : List TypeNode) (T : TypeNode) (ts : List TypeNode) : Option TypeNode :=
  if ts = args then some T else none

/-- The operators with any number of children of one type. -/
def allType (arg : TypeNode) (ts : List TypeNode) : Option TypeNode :=
  if ∀ t ∈ ts, t = arg then some arg else none

def bvType (R : Nat → Option TypeNode) : List TypeNode → Option TypeNode
  | [.bitVector w] => R w
  | _ => none

def bvIteType : List TypeNode → Option TypeNode
  | [.bitVector 1, .bitVector w, .bitVector w'] => if w' = w then some (.bitVector w) else none
  | _ => none

def equalType : List TypeNode → Option TypeNode
  | [t, t'] => if t' = t then some .boolean else none
  | _ => none

def iteType : List TypeNode → Option TypeNode
  | [.boolean, t, t'] => if t' = t then some t else none
  | _ => none

def typeOfKind (ops : Ops) (k : Kind) (ts : List TypeNode) : Option TypeNode :=
  match k with
  | .bitvectorNot | .bitvectorNeg => bvType (fun w => some (.bitVector w)) ts
  | .bitvectorZeroExtend amount | .bitvectorSignExtend amount =>
    bvType (fun w => some (.bitVector (w + amount))) ts
  | .bitvectorExtract high low =>
    bvType (fun w =>
      if low ≤ high ∧ high < w then some (.bitVector (high - low + 1)) else none) ts
  | .bitvectorUbvToInt => bvType (fun _ => some .integer) ts
  | .intToBitvector size => if 0 < size then fixedType [.integer] (.bitVector size) ts else none
  | .bitvectorIte => bvIteType ts
  | .equal => equalType ts
  | .ite => iteType ts
  | .not => fixedType [.boolean] .boolean ts
  | .xor | .implies => fixedType [.boolean, .boolean] .boolean ts
  | .and | .or => allType .boolean ts
  | .add | .mult => allType .integer ts
  | .neg | .pow2 => fixedType [.integer] .integer ts
  | .sub | .intsDivisionTotal | .intsModulusTotal | .pow | .iand _ =>
    fixedType [.integer, .integer] .integer ts
  | .lt | .leq | .gt | .geq => fixedType [.integer, .integer] .boolean ts
  | .applyUf f => fixedType (ops.argTypes f) (ops.rangeType f) ts
  | .applyIntUf f =>
    fixedType ((ops.argTypes f).map TypeNode.translated) (ops.rangeType f).translated ts
  | .other s => ops.typeOf s ts
  | k => chainType k ts

def ints : List Value → Option (List Int)
  | [] => some []
  | .int z :: vs => (ints vs).map (z :: ·)
  | _ :: _ => none

def bools : List Value → Option (List Bool)
  | [] => some []
  | .bool b :: vs => (bools vs).map (b :: ·)
  | _ :: _ => none

/-- The bits of two integers, modulo `2 ^ size`. -/
def iandValue (size : Nat) (a b : Int) : Int :=
  (((a % 2 ^ size).toNat &&& (b % 2 ^ size).toNat : Nat) : Int)

/-- A model: values of the variables and functions of the formula, of the skolems and of the skolem
functions. -/
structure Model where
  bool : Nat → Bool
  int : Nat → Int
  bv : (x w : Nat) → BitVec w
  other : (s x : Nat) → Nat
  fn : Nat → List Value → Value
  purify : Node → Int
  intFn : Nat → List Value → Value

def chainValue (k : Kind) : List Value → Option Value
  | [v, v'] => binaryValue k v v'
  | v :: v' :: vs => if chained k then (v' :: vs).foldlM (binaryValue k) v else none
  | _ => none

def bvValue (f : (w : Nat) → BitVec w → Value) : List Value → Option Value
  | [.bv w x] => some (f w x)
  | _ => none

def bvIteValue : List Value → Option Value
  | [.bv 1 c, .bv w x, .bv w' y] =>
    if h : w' = w then some (.bv w (if c = 1 then x else y.cast h)) else none
  | _ => none

def boolValue (f : Bool → Bool) : List Value → Option Value
  | [.bool a] => some (.bool (f a))
  | _ => none

def boolValue₂ (f : Bool → Bool → Bool) : List Value → Option Value
  | [.bool a, .bool b] => some (.bool (f a b))
  | _ => none

def intValue (f : Int → Value) : List Value → Option Value
  | [.int a] => some (f a)
  | _ => none

def intValue₂ (f : Int → Int → Value) : List Value → Option Value
  | [.int a, .int b] => some (f a b)
  | _ => none

def equalValue : List Value → Option Value
  | [v, v'] => some (.bool (decide (v = v')))
  | _ => none

def iteValue : List Value → Option Value
  | [.bool c, v, v'] => some (if c then v else v')
  | _ => none

def valueOfKind (ops : Ops) (ρ : Model) (k : Kind) (vs : List Value) : Option Value :=
  match k with
  | .bitvectorNot => bvValue (fun w x => .bv w (~~~x)) vs
  | .bitvectorNeg => bvValue (fun w x => .bv w (-x)) vs
  | .bitvectorZeroExtend amount =>
    bvValue (fun w x => .bv (w + amount) (x.setWidth (w + amount))) vs
  | .bitvectorSignExtend amount =>
    bvValue (fun w x => .bv (w + amount) (x.signExtend (w + amount))) vs
  | .bitvectorExtract high low =>
    bvValue (fun _ x => .bv (high - low + 1) (x.extractLsb' low (high - low + 1))) vs
  | .bitvectorUbvToInt => bvValue (fun _ x => .int x.toNat) vs
  | .intToBitvector size => intValue (fun z => .bv size (BitVec.ofInt size z)) vs
  | .bitvectorIte => bvIteValue vs
  | .equal => equalValue vs
  | .ite => iteValue vs
  | .not => boolValue (!·) vs
  | .xor => boolValue₂ (· != ·) vs
  | .implies => boolValue₂ (!· || ·) vs
  | .and => (bools vs).map fun bs => .bool (bs.all id)
  | .or => (bools vs).map fun bs => .bool (bs.any id)
  | .add => (ints vs).map fun zs => .int zs.sum
  | .mult => (ints vs).map fun zs => .int zs.prod
  | .neg => intValue (fun a => .int (-a)) vs
  | .pow2 => intValue (fun a => .int (if 0 ≤ a then 2 ^ a.toNat else 0)) vs
  | .sub => intValue₂ (fun a b => .int (a - b)) vs
  | .intsDivisionTotal => intValue₂ (fun a b => .int (a / b)) vs
  | .intsModulusTotal => intValue₂ (fun a b => .int (a % b)) vs
  | .pow => intValue₂ (fun a b => .int (if 0 ≤ b then a ^ b.toNat else 0)) vs
  | .iand size => intValue₂ (fun a b => .int (iandValue size a b)) vs
  | .lt => intValue₂ (fun a b => .bool (decide (a < b))) vs
  | .leq => intValue₂ (fun a b => .bool (decide (a ≤ b))) vs
  | .gt => intValue₂ (fun a b => .bool (decide (a > b))) vs
  | .geq => intValue₂ (fun a b => .bool (decide (a ≥ b))) vs
  | .applyUf f => some (ρ.fn f vs)
  | .applyIntUf f => some (ρ.intFn f vs)
  | .other s => ops.value s vs
  | k => chainValue k vs

namespace Node

mutual

def getType (ops : Ops) : Node → Option TypeNode
  | .boolVar _ => some .boolean
  | .intVar _ => some .integer
  | .bvVar _ w => if 0 < w then some (.bitVector w) else none
  | .otherVar s _ => some (.other s)
  | .constBool _ => some .boolean
  | .constInt _ => some .integer
  | .constBV w _ => if 0 < w then some (.bitVector w) else none
  | .purify _ => some .integer
  | .app k cs => (getTypes ops cs).bind (typeOfKind ops k)

def getTypes (ops : Ops) : List Node → Option (List TypeNode)
  | [] => some []
  | c :: cs => (getType ops c).bind fun t => (getTypes ops cs).map (t :: ·)

end

mutual

def value (ops : Ops) (ρ : Model) : Node → Option Value
  | .boolVar x => some (.bool (ρ.bool x))
  | .intVar x => some (.int (ρ.int x))
  | .bvVar x w => some (.bv w (ρ.bv x w))
  | .otherVar s x => some (.other s (ρ.other s x))
  | .constBool b => some (.bool b)
  | .constInt z => some (.int z)
  | .constBV w x => some (.bv w x)
  | .purify n => some (.int (ρ.purify n))
  | .app k cs => (values ops ρ cs).bind (valueOfKind ops ρ k)

def values (ops : Ops) (ρ : Model) : List Node → Option (List Value)
  | [] => some []
  | c :: cs => (value ops ρ c).bind fun v => (values ops ρ cs).map (v :: ·)

end

/-- The subterms of a node. -/
inductive Subterm : Node → Node → Prop
  | refl (n : Node) : Subterm n n
  | child {s c : Node} {k : Kind} {cs : List Node} : c ∈ cs → Subterm s c → Subterm s (.app k cs)

mutual

/-- The nodes that the pass is applied to have no skolems. -/
def source : Node → Bool
  | .purify _ => false
  | .app (.applyIntUf _) _ => false
  | .app _ cs => sources cs
  | _ => true

def sources : List Node → Bool
  | [] => true
  | c :: cs => source c && sources cs

end

def isConst : Node → Bool
  | .constBool _ | .constInt _ | .constBV _ _ => true
  | _ => false

end Node

open Node

/-! ## Integer terms -/

def pow2Node (k : Nat) : Node := .constInt (2 ^ k)

def maxInt (k : Nat) : Node := .constInt (2 ^ k - 1)

def modpow2 (n : Node) (exponent : Nat) : Node := .app .intsModulusTotal [n, pow2Node exponent]

def createBVAddNode (x y : Node) (bvsize : Nat) : Node :=
  .app .intsModulusTotal [.app .add [x, y], pow2Node bvsize]

def createBVSubNode (x y : Node) (bvsize : Nat) : Node :=
  .app .intsModulusTotal [.app .sub [x, y], pow2Node bvsize]

def createBVNotNode (n : Node) (bvsize : Nat) : Node := .app .sub [maxInt bvsize, n]

def createBVNegNode (n : Node) (bvsize : Nat) : Node :=
  createBVAddNode (createBVNotNode n bvsize) (.constInt 1) bvsize

/-- The signed value of an unsigned one. -/
def uts (x : Node) (bvsize : Nat) : Node :=
  .app .sub [x, .app .ite [.app .lt [x, pow2Node (bvsize - 1)], .constInt 0, pow2Node bvsize]]

def createSignExtendNode (x : Node) (bvsize amount : Nat) : Node :=
  match x with
  | .constInt c =>
    if c < 2 ^ (bvsize - 1) ∨ amount = 0 then .constInt c
    else .constInt ((2 ^ amount - 1) * 2 ^ bvsize + c)
  | x =>
    if amount = 0 then x
    else
      .app .ite [.app .lt [x, pow2Node (bvsize - 1)], x,
        .app .add [.app .mult [maxInt amount, pow2Node bvsize], x]]

/-- The chain of conditions on the amount of a shift, built from zero on. -/
def shiftChain (x y : Node) (bvsize : Nat) (isLeftShift : Bool) : Nat → Node
  | 0 => .constInt 0
  | i + 1 =>
    .app .ite [.app .equal [y, .constInt i],
      if isLeftShift then .app .intsModulusTotal [.app .mult [x, pow2Node i], pow2Node bvsize]
      else .app .intsDivisionTotal [x, pow2Node i],
      shiftChain x y bvsize isLeftShift i]

def createShiftNode (usePow2 : Bool) (x y : Node) (bvsize : Nat) (isLeftShift : Bool) :
    Option Node :=
  if y.isConst then none
  else if usePow2 then
    some (if isLeftShift then
        .app .intsModulusTotal [.app .mult [x, .app .pow2 [y]], pow2Node bvsize]
      else .app .intsDivisionTotal [x, .app .pow2 [y]])
  else some (shiftChain x y bvsize isLeftShift bvsize)

/-! ## Conjunctions of bits -/

inductive Mode
  | sum | iand | bv | bitwise
deriving DecidableEq

structure Options where
  mode : Mode
  granularity : Nat
  bvToIntUsePow2 : Bool

/-- An entry of the table that `computeAndTable` makes. -/
def andEntry (granularity i j : Nat) : Nat :=
  ((List.range granularity).map fun n => if i.testBit n && j.testBit n then 2 ^ n else 0).sum

/-- The pairs of numbers below `2 ^ granularity`, in the order of the two loops. -/
def tableKeys (granularity : Nat) : List (Nat × Nat) :=
  (List.range (2 ^ granularity)).flatMap fun i => (List.range (2 ^ granularity)).map fun j => (i, j)

/-- The most common entry of the table, the last one of those that are equally common. -/
def defaultValue (granularity : Nat) : Nat :=
  let entries := (tableKeys granularity).map fun p => andEntry granularity p.1 p.2
  ((List.range (2 ^ granularity + 1)).foldl
    (fun best i => if best.2 ≤ entries.count i then (i, entries.count i) else best) (0, 0)).1

def createITEFromTable (x y : Node) (granularity : Nat) : Node :=
  (tableKeys granularity).foldl (fun ite p =>
      if andEntry granularity p.1 p.2 = defaultValue granularity then ite
      else
        .app .ite [.app .and [.app .equal [x, .constInt p.1], .app .equal [y, .constInt p.2]],
          .constInt (andEntry granularity p.1 p.2), ite])
    (.constInt (defaultValue granularity))

def intExtract (x : Node) (i size : Nat) : Node :=
  .app .intsModulusTotal [.app .intsDivisionTotal [x, pow2Node (i * size)], pow2Node size]

/-- The closest divisor of the width going down. -/
def closestDivisor (bvsize : Nat) : Nat → Nat
  | 0 => 0
  | g + 1 => if bvsize % (g + 1) ≠ 0 then closestDivisor bvsize g else g + 1

def createSumNode (x y : Node) (bvsize granularity : Nat) : Node :=
  let granularity := if bvsize < granularity then bvsize else closestDivisor bvsize granularity
  (List.range (bvsize / granularity)).foldl (fun sumNode i =>
      .app .add [sumNode, .app .mult [pow2Node (i * granularity),
        createITEFromTable (intExtract x i granularity) (intExtract y i granularity) granularity]])
    (.constInt 0)

def twoToK (k : Nat) : Node := .app .pow [.constInt 2, .constInt k]

def iextract (i j : Nat) (n : Node) : Node :=
  .app .intsModulusTotal [.app .intsDivisionTotal [n, twoToK j], twoToK (i - j + 1)]

def createBitwiseIAndNode (x y : Node) (high low : Nat) : Node :=
  createITEFromTable (iextract high low x) (iextract high low y) (high - low + 1)

section

variable (ops : Ops) (opts : Options) (rewrite : Node → Node)

def mkRangeConstraint (newVar : Node) (k : Nat) : Node :=
  rewrite (.app .and [.app .leq [.constInt 0, newVar], .app .lt [newVar, pow2Node k]])

/-- The lemmas about the bits of a conjunction: one for each block of bits. -/
def bitwiseConstraints (x y result : Node) (bvsize granularity : Nat) : List Node :=
  ((List.range bvsize).filter fun j => j % granularity = 0).map fun j =>
    let high := if bvsize ≤ j + granularity - 1 then bvsize - 1 else j + granularity - 1
    .app .equal [iextract high j result, createBitwiseIAndNode x y high j]

def createBVAndNode (x y : Node) (bvsize : Nat) : Option (Node × List Node) :=
  match opts.mode with
  | .iand => some (.app (.iand bvsize) [x, y], [])
  | .bv =>
    some (.app .bitvectorUbvToInt [.app .bitvectorAnd
      [.app (.intToBitvector bvsize) [x], .app (.intToBitvector bvsize) [y]]], [])
  | .sum =>
    if 0 < opts.granularity ∧ opts.granularity ≤ 8 then
      some (createSumNode x y bvsize opts.granularity, [])
    else none
  | .bitwise =>
    if 0 < opts.granularity ∧ opts.granularity ≤ 8 then
      let result := .purify (.app (.iand bvsize) [x, y])
      some (result, mkRangeConstraint rewrite result bvsize ::
        bitwiseConstraints x y result bvsize opts.granularity)
    else none

def createBVOrNode (x y : Node) (bvsize : Nat) : Option (Node × List Node) :=
  (createBVAndNode opts rewrite x y bvsize).map fun (bvand, lemmas) =>
    (createBVSubNode (createBVAddNode x y bvsize) bvand bvsize, lemmas)

/-! ## Terms -/

def castToType (n : Node) (tn : TypeNode) : Option Node := do
  let t ← n.getType ops
  if t = tn then some n
  else
    match t, tn with
    | .integer, .bitVector w => some (.app (.intToBitvector w) [n])
    | .bitVector _, .integer => some (.app .bitvectorUbvToInt [n])
    | _, _ => none

/-- The children, cast back to the types they had before the translation. -/
def castChildren : List Node → List TypeNode → Option (List Node)
  | c :: cs, t :: ts => do
      let c' ← castToType ops c t
      let cs' ← castChildren cs ts
      some (c' :: cs')
  | [], [] => some []
  | _, _ => none

def reconstructNode (k : Kind) (ts : List TypeNode) (resultType : TypeNode) (cs : List Node) :
    Option Node := do
  let cs' ← castChildren ops cs ts
  castToType ops (.app k cs') resultType

/-- The translation of an operator on bit-vectors with two children of the width `bvsize`. -/
def translateBinary (k : Kind) (x y : Node) (bvsize : Nat) : Option (Node × List Node) :=
  match k with
  | .bitvectorAdd => some (createBVAddNode x y bvsize, [])
  | .bitvectorMult => some (.app .intsModulusTotal [.app .mult [x, y], pow2Node bvsize], [])
  | .bitvectorUdiv =>
    some (.app .ite [.app .equal [y, .constInt 0], .app .sub [pow2Node bvsize, .constInt 1],
      .app .intsDivisionTotal [x, y]], [])
  | .bitvectorUrem =>
    some (.app .ite [.app .equal [y, .constInt 0], x, .app .intsModulusTotal [x, y]], [])
  | .bitvectorAnd => createBVAndNode opts rewrite x y bvsize
  | .bitvectorOr => createBVOrNode opts rewrite x y bvsize
  | .bitvectorXor => do
      let (bvor, lemmas) ← createBVOrNode opts rewrite x y bvsize
      let (bvand, lemmas') ← createBVAndNode opts rewrite x y bvsize
      some (createBVSubNode bvor bvand bvsize, lemmas ++ lemmas')
  | .bitvectorShl => (createShiftNode opts.bvToIntUsePow2 x y bvsize true).map (·, [])
  | .bitvectorLshr => (createShiftNode opts.bvToIntUsePow2 x y bvsize false).map (·, [])
  | .bitvectorAshr => do
      let thenNode ← createShiftNode opts.bvToIntUsePow2 x y bvsize false
      let shifted ← createShiftNode opts.bvToIntUsePow2 (createBVNotNode x bvsize) y bvsize false
      some (.app .ite [.app .lt [x, pow2Node (bvsize - 1)], thenNode,
        createBVNotNode shifted bvsize], [])
  | .bitvectorUlt | .bitvectorUsubo => some (.app .lt [x, y], [])
  | .bitvectorUle => some (.app .leq [x, y], [])
  | .bitvectorUgt => some (.app .gt [x, y], [])
  | .bitvectorUge => some (.app .geq [x, y], [])
  | .bitvectorSlt => some (.app .lt [uts x bvsize, uts y bvsize], [])
  | .bitvectorUltbv => some (.app .ite [.app .lt [x, y], .constInt 1, .constInt 0], [])
  | .bitvectorSltbv =>
    some (.app .ite [.app .lt [uts x bvsize, uts y bvsize], .constInt 1, .constInt 0], [])
  | .bitvectorComp => some (.app .ite [.app .equal [x, y], .constInt 1, .constInt 0], [])
  | .bitvectorUaddo => some (.app .geq [.app .add [x, y], pow2Node bvsize], [])
  | .bitvectorUmulo => some (.app .geq [.app .mult [x, y], pow2Node bvsize], [])
  | .bitvectorSaddo => some (signedOverflow (.app .add [uts x bvsize, uts y bvsize]) bvsize, [])
  | .bitvectorSmulo => some (signedOverflow (.app .mult [uts x bvsize, uts y bvsize]) bvsize, [])
  | .bitvectorSsubo => some (signedOverflow (.app .sub [uts x bvsize, uts y bvsize]) bvsize, [])
  | _ => none
where
  /-- `GEQ(result, 2^(bvsize-1)) or LT(result, -2^(bvsize-1))`. -/
  signedOverflow (result : Node) (bvsize : Nat) : Node :=
    .app .or [.app .geq [result, pow2Node (bvsize - 1)],
      .app .lt [result, .app .neg [pow2Node (bvsize - 1)]]]

/-- The width of the first of the children. -/
def bvsize? : List TypeNode → Option Nat
  | .bitVector w :: _ => some w
  | _ => none

/-- `kindToTheoryId(k) == THEORY_BV`, for the operators that the switch does not list before. -/
def Kind.theoryBV (k : Kind) : Bool :=
  k = .bitvectorConcat || (bvOperator? k).isSome || (bvPredicate? k).isSome ||
    (bvBitPredicate? k).isSome

/-- The children types, the type and the translated children determine the translation of an
application; the division by a constant zero was eliminated before this point. -/
def translateWithChildren (k : Kind) (ts : List TypeNode) (tn : TypeNode) (cs : List Node) :
    Option (Node × List Node) :=
  match k, cs with
  | .bitvectorNot, [x] => (bvsize? ts).map fun w => (createBVNotNode x w, [])
  | .bitvectorNeg, [x] => (bvsize? ts).map fun w => (createBVNegNode x w, [])
  | .bitvectorUbvToInt, [x] => some (x, [])
  | .intToBitvector size, [x] => some (modpow2 x size, [])
  | .bitvectorIte, [c, x, y] => some (.app .ite [.app .equal [c, .constInt 1], x, y], [])
  | .bitvectorZeroExtend _, [x] => some (x, [])
  | .bitvectorSignExtend amount, [x] =>
    (bvsize? ts).map fun w => (createSignExtendNode x w amount, [])
  | .bitvectorConcat, [x, y] =>
    (bvsize? ts.tail).map fun w => (.app .add [.app .mult [x, pow2Node w], y], [])
  | .bitvectorExtract high low, [x] =>
    some (modpow2 (.app .intsDivisionTotal [x, pow2Node low]) (high - low + 1), [])
  | .equal, cs => some (.app .equal cs, [])
  | .ite, cs => some (.app .ite cs, [])
  | .applyUf f, cs =>
    match tn with
    | .bitVector w =>
      some (.app (.applyIntUf f) cs, [mkRangeConstraint rewrite (.app (.applyIntUf f) cs) w])
    | _ => some (.app (.applyIntUf f) cs, [])
  | .applyIntUf _, _ => none
  | k, cs =>
    if k.theoryBV then
      match cs with
      | [x, y] => (bvsize? ts).bind (translateBinary opts rewrite k x y)
      | _ => none
    else (reconstructNode ops k ts tn.translated cs).map (·, [])

def isZero : Node → Bool
  | .constBV _ x => x == 0
  | _ => false

mutual

/-- The traversal of `trustedIntBlast`, on terms with binary operators only. -/
def translate : Node → Option (Node × List Node)
  | .bvVar x w =>
    let translation := .purify (.app .bitvectorUbvToInt [.bvVar x w])
    if 0 < w then some (translation, [mkRangeConstraint rewrite translation w]) else none
  | .boolVar x => some (.boolVar x, [])
  | .intVar x => some (.intVar x, [])
  | .otherVar s x => some (.otherVar s x, [])
  | .constBool b => some (.constBool b, [])
  | .constInt z => some (.constInt z, [])
  | .constBV w x => if 0 < w then some (.constInt x.toNat, []) else none
  | .purify n => some (.purify n, [])
  | .app k cs => do
      let ts ← getTypes ops cs
      let tn ← typeOfKind ops k ts
      let (cs', lemmas) ← translates cs
      if k = .bitvectorUdiv ∧ (cs.getLast?.map isZero).getD false then none
      else
        let (n, lemmas') ← translateWithChildren ops opts rewrite k ts tn cs'
        some (n, lemmas ++ lemmas')

def translates : List Node → Option (List Node × List Node)
  | [] => some ([], [])
  | c :: cs => do
      let (c', lemmas) ← translate c
      let (cs', lemmas') ← translates cs
      some (c' :: cs', lemmas ++ lemmas')

end

/-- `makeBinary` for an operator and its processed children. -/
def chainBinary (k : Kind) (result : Node) : List Node → Node
  | [] => result
  | c :: cs => chainBinary k (.app k [result, c]) cs

def makeBinaryApp (k : Kind) (cs : List Node) : Node :=
  match cs with
  | c :: c' :: c'' :: cs => if chained k then chainBinary k c (c' :: c'' :: cs) else .app k (c :: c' :: c'' :: cs)
  | cs => .app k cs

mutual

def makeBinary : Node → Node
  | .app k cs => makeBinaryApp k (makeBinaries cs)
  | n => n

def makeBinaries : List Node → List Node
  | [] => []
  | c :: cs => makeBinary c :: makeBinaries cs

end

/-- The translated formula and the lemmas. -/
def intBlast (n : Node) : Option (Node × List Node) := translate ops opts rewrite (makeBinary n)

end

end EthosCpc.Cvc5.IntBlaster
