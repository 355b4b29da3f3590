import Mathlib.Algebra.BigOperators.Group.List.Basic
import Mathlib.Algebra.Ring.Int.Defs
import Mathlib.Algebra.GroupWithZero.Nat

/-!
# Solving integers as bit-vectors

The preprocessing pass `IntToBV`.  Every integer variable is replaced by a
bit-vector variable of the width given by the option, every operator by a
bit-vector operator on children that are sign extended to a common width: the
width of the widest child, one bit more for a sum, a difference or a negation,
twice as many bits for a product.  A term the pass cannot translate, for which the
code throws an exception, has no translation here.

The pass rewrites every node it builds.  The rewriter is a parameter, and the
operators it may use beyond those of the pass are the entries of a table `Ops`.
-/

namespace EthosCpc.Cvc5.IntToBV

inductive TypeNode
  | boolean
  | integer
  | bitVector (w : Nat)
  | other (s : Nat)
deriving DecidableEq

inductive Kind
  | add | mult | nonlinearMult | sub | neg
  | lt | leq | gt | geq | equal | ite
  | not | and | or | xor | implies
  | bitvectorAdd | bitvectorMult | bitvectorSub | bitvectorNeg
  | bitvectorSlt | bitvectorSle | bitvectorSgt | bitvectorSge
  | bitvectorSignExtend (amount : Nat)
  | bitvectorUbvToInt
  | other (s : Nat)
deriving DecidableEq

/-- Variables; `intToBVVar x` is the skolem the pass introduces for the integer variable `x`. -/
inductive Var
  | boolVar (x : Nat)
  | intVar (x : Nat)
  | intToBVVar (x w : Nat)
  | other (s x : Nat)
deriving DecidableEq

def Var.type : Var → TypeNode
  | .boolVar _ => .boolean
  | .intVar _ => .integer
  | .intToBVVar _ w => .bitVector w
  | .other s _ => .other s

inductive Node
  | var (x : Var)
  | constBool (b : Bool)
  | constInt (z : Int)
  | constBV (w : Nat) (x : BitVec w)
  | app (k : Kind) (cs : List Node)

inductive Value
  | bool (b : Bool)
  | int (z : Int)
  | bv (w : Nat) (x : BitVec w)
  | other (s x : Nat)
deriving DecidableEq

def Value.type : Value → TypeNode
  | .bool _ => .boolean
  | .int _ => .integer
  | .bv w _ => .bitVector w
  | .other s _ => .other s

/-- The operators of other theories: their types, their values and whether they bind variables. -/
structure Ops where
  isClosure : Nat → Bool
  typeOf : Nat → List TypeNode → Option TypeNode
  value : Nat → List Value → Option Value
  value_of_typeOf : ∀ s vs T, isClosure s = false → typeOf s (vs.map Value.type) = some T →
    ∃ v, value s vs = some v ∧ v.type = T

def isClosure (ops : Ops) : Kind → Bool
  | .other s => ops.isClosure s
  | _ => false

/-! ## Types -/

/-- The type rule of an operator. -/
def typeOfKind (ops : Ops) : Kind → List TypeNode → Option TypeNode
  | .add, ts | .mult, ts | .nonlinearMult, ts =>
    if 2 ≤ ts.length ∧ ∀ t ∈ ts, t = .integer then some .integer else none
  | .sub, [.integer, .integer] => some .integer
  | .neg, [.integer] => some .integer
  | .lt, [.integer, .integer] | .leq, [.integer, .integer]
  | .gt, [.integer, .integer] | .geq, [.integer, .integer] => some .boolean
  | .equal, [t, t'] => if t = t' then some .boolean else none
  | .ite, [.boolean, t, t'] => if t = t' then some t else none
  | .not, [.boolean] => some .boolean
  | .and, ts | .or, ts =>
    if 2 ≤ ts.length ∧ ∀ t ∈ ts, t = .boolean then some .boolean else none
  | .xor, [.boolean, .boolean] | .implies, [.boolean, .boolean] => some .boolean
  | .bitvectorAdd, .bitVector w :: ts | .bitvectorMult, .bitVector w :: ts =>
    if 1 ≤ ts.length ∧ ∀ t ∈ ts, t = .bitVector w then some (.bitVector w) else none
  | .bitvectorSub, [.bitVector w, .bitVector w'] => if w = w' then some (.bitVector w) else none
  | .bitvectorNeg, [.bitVector w] => some (.bitVector w)
  | .bitvectorSlt, [.bitVector w, .bitVector w'] | .bitvectorSle, [.bitVector w, .bitVector w']
  | .bitvectorSgt, [.bitVector w, .bitVector w'] | .bitvectorSge, [.bitVector w, .bitVector w'] =>
    if w = w' then some .boolean else none
  | .bitvectorSignExtend amount, [.bitVector w] => some (.bitVector (w + amount))
  | .bitvectorUbvToInt, [.bitVector _] => some .integer
  | .other s, ts => ops.typeOf s ts
  | _, _ => none

namespace Node

mutual

def getType (ops : Ops) : Node → Option TypeNode
  | .var x => some x.type
  | .constBool _ => some .boolean
  | .constInt _ => some .integer
  | .constBV w _ => some (.bitVector w)
  | .app k cs => (getTypes ops cs).bind (typeOfKind ops k)

def getTypes (ops : Ops) : List Node → Option (List TypeNode)
  | [] => some []
  | c :: cs => (getType ops c).bind fun t => (getTypes ops cs).map (t :: ·)

end

end Node

/-! ## Values -/

def ints : List Value → Option (List Int)
  | [] => some []
  | .int z :: vs => (ints vs).map (z :: ·)
  | _ :: _ => none

def bools : List Value → Option (List Bool)
  | [] => some []
  | .bool b :: vs => (bools vs).map (b :: ·)
  | _ :: _ => none

def bvs (w : Nat) : List Value → Option (List (BitVec w))
  | [] => some []
  | .bv w' x :: vs => if h : w' = w then (bvs w vs).map (x.cast h :: ·) else none
  | _ :: _ => none

/-- An operator on two bit-vectors of one width. -/
def bvBinary (f : (w : Nat) → BitVec w → BitVec w → Value) : List Value → Option Value
  | [.bv w x, .bv w' y] => if h : w' = w then some (f w x (y.cast h)) else none
  | _ => none

/-- The meaning of an operator on the values of its children. -/
def valueOfKind (ops : Ops) : Kind → List Value → Option Value
  | .add, vs => (ints vs).map fun zs => .int zs.sum
  | .mult, vs | .nonlinearMult, vs => (ints vs).map fun zs => .int zs.prod
  | .sub, [.int a, .int b] => some (.int (a - b))
  | .neg, [.int a] => some (.int (-a))
  | .lt, [.int a, .int b] => some (.bool (decide (a < b)))
  | .leq, [.int a, .int b] => some (.bool (decide (a ≤ b)))
  | .gt, [.int a, .int b] => some (.bool (decide (a > b)))
  | .geq, [.int a, .int b] => some (.bool (decide (a ≥ b)))
  | .equal, [v, v'] => if v.type = v'.type then some (.bool (decide (v = v'))) else none
  | .ite, [.bool c, v, v'] => if v.type = v'.type then some (if c then v else v') else none
  | .not, [.bool b] => some (.bool !b)
  | .and, vs => (bools vs).map fun bs => .bool (bs.all id)
  | .or, vs => (bools vs).map fun bs => .bool (bs.any id)
  | .xor, [.bool a, .bool b] => some (.bool (a != b))
  | .implies, [.bool a, .bool b] => some (.bool (!a || b))
  | .bitvectorAdd, .bv w x :: vs => (bvs w vs).map fun xs => .bv w (xs.foldl (· + ·) x)
  | .bitvectorMult, .bv w x :: vs => (bvs w vs).map fun xs => .bv w (xs.foldl (· * ·) x)
  | .bitvectorSub, vs => bvBinary (fun w x y => .bv w (x - y)) vs
  | .bitvectorNeg, [.bv w x] => some (.bv w (-x))
  | .bitvectorSlt, vs => bvBinary (fun _ x y => .bool (x.slt y)) vs
  | .bitvectorSle, vs => bvBinary (fun _ x y => .bool (x.sle y)) vs
  | .bitvectorSgt, vs => bvBinary (fun _ x y => .bool (y.slt x)) vs
  | .bitvectorSge, vs => bvBinary (fun _ x y => .bool (y.sle x)) vs
  | .bitvectorSignExtend amount, [.bv w x] => some (.bv (w + amount) (x.signExtend (w + amount)))
  | .bitvectorUbvToInt, [.bv _ x] => some (.int x.toNat)
  | .other s, vs => ops.value s vs
  | _, _ => none

/-- Values of the variables. -/
structure Assignment where
  bool : Nat → Bool
  int : Nat → Int
  bv : (x w : Nat) → BitVec w
  other : (s x : Nat) → Nat

def Assignment.value (ρ : Assignment) : Var → Value
  | .boolVar x => .bool (ρ.bool x)
  | .intVar x => .int (ρ.int x)
  | .intToBVVar x w => .bv w (ρ.bv x w)
  | .other s x => .other s (ρ.other s x)

namespace Node

mutual

def value (ops : Ops) (ρ : Assignment) : Node → Option Value
  | .var x => some (ρ.value x)
  | .constBool b => some (.bool b)
  | .constInt z => some (.int z)
  | .constBV w x => some (.bv w x)
  | .app k cs => (values ops ρ cs).bind (valueOfKind ops k)

def values (ops : Ops) (ρ : Assignment) : List Node → Option (List Value)
  | [] => some []
  | c :: cs => (value ops ρ c).bind fun v => (values ops ρ cs).map (v :: ·)

end

/-- The subterms of a node. -/
inductive Subterm : Node → Node → Prop
  | refl (n : Node) : Subterm n n
  | child {s c : Node} {k : Kind} {cs : List Node} : c ∈ cs → Subterm s c → Subterm s (.app k cs)

end Node

open Node

/-! ## The pass -/

/-- `result = mkNode(kind, result, child)` for every further child. -/
def chainBinary (k : Kind) (result : Node) : List Node → Node
  | [] => result
  | c :: cs => chainBinary k (.app k [result, c]) cs

/-- What `intToBVMakeBinary` builds from an operator and its processed children. -/
def makeBinaryApp (k : Kind) (cs : List Node) : Node :=
  match k, cs with
  | .add, c :: c' :: c'' :: cs => chainBinary .add c (c' :: c'' :: cs)
  | .mult, c :: c' :: c'' :: cs => chainBinary .mult c (c' :: c'' :: cs)
  | .nonlinearMult, c :: c' :: c'' :: cs => chainBinary .nonlinearMult c (c' :: c'' :: cs)
  | k, cs => .app k cs

mutual

def intToBVMakeBinary : Node → Node
  | .app k cs => makeBinaryApp k (intToBVMakeBinaries cs)
  | n => n

def intToBVMakeBinaries : List Node → List Node
  | [] => []
  | c :: cs => intToBVMakeBinary c :: intToBVMakeBinaries cs

end

/-- The widest bit-vector among the children, zero if there is none. -/
def maxSize : List TypeNode → Nat
  | [] => 0
  | .bitVector w :: ts => max w (maxSize ts)
  | _ :: ts => maxSize ts

/-- The operator on bit-vectors and the width of its children, from the number of children, the
width of the widest one, and whether the type of a child has changed. -/
def newKind (children : Nat) (changed : Bool) (size : Nat) : Kind → Option (Kind × Nat)
  | .add => if children = 2 then some (.bitvectorAdd, size + 1) else none
  | .mult | .nonlinearMult => if children = 2 then some (.bitvectorMult, size * 2) else none
  | .sub => if children = 2 then some (.bitvectorSub, size + 1) else none
  | .neg => if children = 1 then some (.bitvectorNeg, size + 1) else none
  | .lt => some (.bitvectorSlt, size)
  | .leq => some (.bitvectorSle, size)
  | .gt => some (.bitvectorSgt, size)
  | .geq => some (.bitvectorSge, size)
  | .equal => some (.equal, size)
  | .ite => some (.ite, size)
  | k => if changed then none else some (k, size)

/-- A child that is a bit-vector is sign extended to the common width. -/
def signExtendTo (size : Nat) (c : Node) : TypeNode → Node
  | .bitVector w => if w < size then .app (.bitvectorSignExtend (size - w)) [c] else c
  | _ => c

/-- What the pass builds from an operator of type `tn`, the types `ts` of its children and their
translations, before it is rewritten. -/
def intToBVApp (ops : Ops) (k : Kind) (tn : TypeNode) (ts : List TypeNode) (cs : List Node) :
    Option Node := do
  let ts' ← getTypes ops cs
  let size := maxSize ts'
  let (k', size') ← if 0 < size then newKind cs.length (ts' != ts) size k else some (k, size)
  guard (size' < 2 ^ 32)
  let children := if 0 < size then List.zipWith (signExtendTo size') cs ts' else cs
  if tn = .integer ∧ k' ≠ .ite ∧ k' = k then none else some (.app k' children)

section

variable (ops : Ops) (rewrite : Node → Node) (size : Nat)

mutual

/-- The traversal of `intToBV` over the node with binary sums and products. -/
def translate : Node → Option Node
  | .var (.intVar x) => some (.var (.intToBVVar x size))
  | .var (.boolVar x) => some (.var (.boolVar x))
  | .constBool b => some (.constBool b)
  | .constInt z =>
    if (BitVec.ofInt size z).toInt = z then some (.constBV size (BitVec.ofInt size z)) else none
  | .app k cs => do
      let ts ← getTypes ops cs
      let tn ← typeOfKind ops k ts
      guard (isClosure ops k = false ∧ (tn = .boolean ∨ tn = .integer))
      let cs' ← translates cs
      (intToBVApp ops k tn ts cs').map rewrite
  | _ => none

def translates : List Node → Option (List Node)
  | [] => some []
  | c :: cs => do
      let c' ← translate c
      let cs' ← translates cs
      some (c' :: cs')

end

def intToBV (n : Node) : Option Node :=
  if 0 < size then translate ops rewrite size (intToBVMakeBinary n) else none

/-- The value of an integer variable in terms of its bit-vector: `x < 0 ? -nat(-x) : nat(x)`. -/
def bv2int (x : Nat) : Node :=
  .app .ite [.app .bitvectorSlt [.var (.intToBVVar x size), .constBV size 0],
    .app .neg [.app .bitvectorUbvToInt [.app .bitvectorNeg [.var (.intToBVVar x size)]]],
    .app .bitvectorUbvToInt [.var (.intToBVVar x size)]]

mutual

/-- The integer variables of a node, each of which gets a substitution when it is first met. -/
def intVars : Node → List Nat
  | .var (.intVar x) => [x]
  | .app _ cs => intVarsOf cs
  | _ => []

def intVarsOf : List Node → List Nat
  | [] => []
  | c :: cs => intVars c ∪ intVarsOf cs

end

/-- The translated assertions and the substitutions that the pass records. -/
def applyInternal (assertions : List Node) : Option (List Node × List (Nat × Node)) := do
  let assertions' ← assertions.mapM (intToBV ops rewrite size)
  some (assertions', (intVarsOf assertions).map fun x => (x, bv2int size x))

end

/-- The integers that the recorded substitutions give to the integer variables. -/
def applySubstitutions (ops : Ops) (substitutions : List (Nat × Node)) (ρ : Assignment) :
    Assignment :=
  { ρ with
    int := fun x =>
      match (substitutions.lookup x).bind (value ops ρ) with
      | some (.int z) => z
      | _ => ρ.int x }

end EthosCpc.Cvc5.IntToBV
