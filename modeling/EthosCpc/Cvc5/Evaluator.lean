import EthosCpc.Cvc5.NativeValues
import EthosCpc.Cvc5.EntailNode

/-!
# The evaluator

`Evaluator::evalInternal` of `theory/evaluator.cpp`, without a rewriter and
for the default alphabet.  A node is evaluated to a native value where all its
children are, a variable to the constant that the substitution gives it; what
cannot be evaluated is `invalid`.  The work list and its table of results are
a recursion here: the result of a node is a function of those of its children.

The meaning of nodes is the SMT-LIB one of `EthosCpc.Semantics.Value`, kind by
kind.  Function application and symbolic indices are not modelled.
-/

namespace EthosCpc.Cvc5.Evaluator

/-! ## Nodes -/

/-- Constants.  The last two are values of uninterpreted sorts, and constants
of the theories that the evaluator does not know. -/
inductive Const
  | boolean (b : Bool)
  | integer (z : Int)
  | rational (q : Rat)
  | bitvector (v : BitVector)
  | string (s : CodeString)
  | uninterpretedSortValue (m k : Nat)
  | other (n : Nat)
  deriving DecidableEq

/-- Kinds, with the indices of the indexed ones.  A kind that the evaluator
does not know is `other`, with a symbol for its meaning. -/
inductive Kind
  | not | and | or | implies | xor
  | add | sub | neg | mult | nonlinearMult
  | division | divisionTotal | intsDivision | intsDivisionTotal | intsModulus | intsModulusTotal
  | geq | leq | gt | lt | abs | toReal | toInteger | isInteger | pow2 | intsIspow2 | intsLog2
  | stringConcat | stringLength | stringSubstr | seqNth | stringUpdate | stringCharat
  | stringContains | stringIndexof | stringReplace | stringReplaceAll | stringPrefix | stringSuffix
  | stringItos | stringStoi | stringFromCode | stringToCode | stringRev | stringToLower
  | stringToUpper | stringLeq
  | bitvectorNot | bitvectorNeg | bitvectorExtract (high low : Nat) | bitvectorConcat
  | bitvectorAdd | bitvectorMult | bitvectorAnd | bitvectorOr | bitvectorXor
  | bitvectorUdiv | bitvectorUrem | bitvectorShl | bitvectorAshr
  | bitvectorUlt | bitvectorSlt | bitvectorSle | bitvectorUle
  | bitvectorUgt | bitvectorSgt | bitvectorSge | bitvectorUge
  | bitvectorRepeat (amount : Nat) | bitvectorSignExtend (amount : Nat)
  | bitvectorZeroExtend (amount : Nat)
  | equal | ite
  | bitvectorUbvToInt | bitvectorSbvToInt | intToBitvector (size : Nat)
  | constBitvectorSymbolic | bitvectorSize
  | other (f : Nat)
  deriving DecidableEq

/-- Nodes. -/
inductive Node
  | const (c : Const)
  | var (n : Nat)
  | app (k : Kind) (cs : List Node)

namespace Node

@[elab_as_elim, induction_eliminator]
lemma rec' {motive : Node → Prop} (const : ∀ c, motive (.const c)) (var : ∀ n, motive (.var n))
    (app : ∀ k cs, (∀ c ∈ cs, motive c) → motive (.app k cs)) (n : Node) : motive n :=
  @Node.rec motive (fun cs => ∀ c ∈ cs, motive c) const var app (by simp)
    (fun c cs hc hcs => by simpa using ⟨hc, hcs⟩) n

/-- The nodes that a run over a node evaluates. -/
inductive IsSubterm (m : Node) : Node → Prop
  | refl : IsSubterm m m
  | child {k : Kind} {cs : List Node} {c : Node} :
      c ∈ cs → IsSubterm m c → IsSubterm m (.app k cs)

end Node

def Const.typeOf (Γ : Nat → Ty) : Const → Ty
  | .boolean _ => .bool
  | .integer _ => .int
  | .rational _ => .real
  | .bitvector v => .bitvec v.size
  | .string _ => .seq .char
  | .uninterpretedSortValue m _ => .usort m
  | .other n => Γ n

/-- A substitution `args -> vals` of constants for variables of their type. -/
structure Subst (Γ : Nat → Ty) where
  pairs : List (Nat × Const)
  typed : ∀ p ∈ pairs, p.2.typeOf Γ = Γ p.1

mutual

def Node.subst (σ : List (Nat × Const)) : Node → Node
  | .const c => .const c
  | .var n =>
    match σ.lookup n with
    | some c => .const c
    | none => .var n
  | .app k cs => .app k (substList σ cs)

/-- The children under a substitution. -/
def substList (σ : List (Nat × Const)) : List Node → List Node
  | [] => []
  | c :: cs => c.subst σ :: substList σ cs

end

/-! ## Sizes of bit-vectors -/

/-- `getBitVectorSize` of a type that is one of bit-vectors. -/
def bitvecSize : Ty → Option Nat
  | .bitvec w => some w
  | _ => none

/-- The common size of bit-vectors. -/
def commonSize : List (Option Nat) → Option Nat
  | [] => none
  | [w] => w
  | w :: ws => if commonSize ws = w then w else none

def sumSize : List (Option Nat) → Option Nat
  | [] => some 0
  | w :: ws => w.bind fun n => (sumSize ws).map (n + ·)

/-- The size in the type of an application, where that is a type of bit-vectors
of one size. -/
def kindSize (Γ : Nat → Ty) (k : Kind) (cs : List Node) (sizes : List (Option Nat)) : Option Nat :=
  match k with
  | .bitvectorNot | .bitvectorNeg | .bitvectorAdd | .bitvectorMult | .bitvectorAnd | .bitvectorOr
  | .bitvectorXor | .bitvectorUdiv | .bitvectorUrem | .bitvectorShl | .bitvectorAshr =>
    commonSize sizes
  | .bitvectorConcat => sumSize sizes
  | .bitvectorExtract high low => if high < low then none else some (high - low + 1)
  | .bitvectorRepeat amount =>
    match sizes with
    | [w] => w.map (amount * ·)
    | _ => none
  | .bitvectorSignExtend amount | .bitvectorZeroExtend amount =>
    match sizes with
    | [w] => w.map (amount + ·)
    | _ => none
  | .ite => commonSize sizes.tail
  | .intToBitvector size => some size
  | .constBitvectorSymbolic =>
    match cs with
    | [_, .const (.integer w)] =>
      if 0 < w ∧ Integer.fitsUnsignedInt w then some (Integer.toUnsignedInt w) else none
    | _ => none
  | .other f => (Entail.resultTy (Γ f) cs.length).bind bitvecSize
  | _ => none

mutual

def typeSize (Γ : Nat → Ty) : Node → Option Nat
  | .const c => bitvecSize (c.typeOf Γ)
  | .var n => bitvecSize (Γ n)
  | .app k cs => kindSize Γ k cs (typeSizes Γ cs)

def typeSizes (Γ : Nat → Ty) : List Node → List (Option Nat)
  | [] => []
  | c :: cs => typeSize Γ c :: typeSizes Γ cs

end

/-! ## Evaluation -/

inductive EvalResult
  | bool (b : Bool)
  | bitvector (v : BitVector)
  | rational (q : Rat)
  | string (s : CodeString)
  | uvalue (m k : Nat)
  | invalid
  deriving DecidableEq

namespace EvalResult

def isInvalid : EvalResult → Bool
  | .invalid => true
  | _ => false

def mkConstRealOrInt (tn : Ty) (q : Rat) : Option Const :=
  if tn = .int then (if q.den = 1 then some (.integer q.num) else none) else some (.rational q)

def toNode (tn : Ty) : EvalResult → Option Const
  | .bool b => some (.boolean b)
  | .bitvector v => some (.bitvector v)
  | .rational q => mkConstRealOrInt tn q
  | .string s => some (.string s)
  | .uvalue m k => some (.uninterpretedSortValue m k)
  | .invalid => none

def ofBitVector : Option BitVector → EvalResult
  | some v => .bitvector v
  | none => .invalid

/-- A string, where it is not too long. -/
def ofString (l : Str) : EvalResult :=
  match CodeString.ofVec l with
  | some s => .string s
  | none => .invalid

def ofInt (z : Int) : EvalResult := .rational z

/-- A loop that starts with the first result and takes one more in each step. -/
def fold (step : EvalResult → EvalResult → EvalResult) : List EvalResult → EvalResult
  | [] => .invalid
  | r :: rs => rs.foldl step r

def onBools (f : Bool → Bool → Bool) : EvalResult → EvalResult → EvalResult
  | .bool a, .bool b => .bool (f a b)
  | _, _ => .invalid

def onRationals (f : Rat → Rat → EvalResult) : EvalResult → EvalResult → EvalResult
  | .rational x, .rational y => f x y
  | _, _ => .invalid

def onBitvectors (f : BitVector → BitVector → EvalResult) : EvalResult → EvalResult → EvalResult
  | .bitvector x, .bitvector y => f x y
  | _, _ => .invalid

def onStrings (f : Str → Str → EvalResult) : EvalResult → EvalResult → EvalResult
  | .string s, .string t => f s.chars t.chars
  | _, _ => .invalid

/-- A case with two arguments. -/
def two (f : EvalResult → EvalResult → EvalResult) : List EvalResult → EvalResult
  | [r, r'] => f r r'
  | _ => .invalid

def rational1 (f : Rat → EvalResult) : List EvalResult → EvalResult
  | [.rational x] => f x
  | _ => .invalid

def bitvector1 (f : BitVector → EvalResult) : List EvalResult → EvalResult
  | [.bitvector x] => f x
  | _ => .invalid

def string1 (f : Str → EvalResult) : List EvalResult → EvalResult
  | [.string s] => f s.chars
  | _ => .invalid

def string3 (f : Str → Str → Str → EvalResult) : List EvalResult → EvalResult
  | [.string s, .string x, .string y] => f s.chars x.chars y.chars
  | _ => .invalid

end EvalResult

open EvalResult Integer

/-- The cases of the constants. -/
def evalConst : Const → EvalResult
  | .boolean b => .bool b
  | .integer z => .rational z
  | .rational q => .rational q
  | .bitvector v => .bitvector v
  | .string s => .string s
  | .uninterpretedSortValue m k => .uvalue m k
  | .other _ => .invalid

/-- One step of the loop that the divisions and remainders share. -/
def divStep (k : Kind) (res x : Rat) : EvalResult :=
  if x = 0 then
    match k with
    | .divisionTotal | .intsDivisionTotal => .rational 0
    | .intsModulusTotal => .rational res
    | _ => .invalid
  else
    match k with
    | .division | .divisionTotal => .rational (res / x)
    | .intsModulus | .intsModulusTotal => ofInt (euclidianDivideRemainder res.num x.num)
    | _ => ofInt (euclidianDivideQuotient res.num x.num)

def evalPow2 (x : Rat) : EvalResult :=
  if x < 0 then .rational 0
  else if fitsUnsignedInt x.num ∧ toUnsignedInt x.num ≤ 256 then ofInt (2 ^ toUnsignedInt x.num)
  else .invalid

def evalSubstr (s : Str) (i j : Int) : EvalResult :=
  if i < 0 ∨ j < 0 ∨ i ≥ s.length then ofString []
  else if i + j > s.length then ofString (CodeString.suffix s (toUnsignedInt (s.length - i)))
  else ofString (CodeString.substr s (toUnsignedInt i) (toUnsignedInt j))

def evalSeqNth (s : Str) (i : Int) : EvalResult :=
  if i < 0 ∨ i ≥ s.length then ofInt (-1)
  else
    match s[toUnsignedInt i]? with
    | some c => ofInt c.val
    | none => .invalid

def evalUpdate (s : Str) (i : Int) (t : Str) : EvalResult :=
  if i < 0 ∨ i ≥ s.length then ofString s else ofString (CodeString.update s (toUnsignedInt i) t)

def evalCharat (s : Str) (i : Int) : EvalResult :=
  if i < 0 ∨ i ≥ s.length then ofString [] else ofString (CodeString.substr s (toUnsignedInt i) 1)

/-- The start of the search is cut to 32 bits and, unlike the positions of the
other operators, not compared with the length first. -/
def evalIndexof (s x : Str) (i : Int) : EvalResult :=
  if i < 0 then ofInt (-1)
  else
    match CodeString.find s x (toUnsignedInt i) with
    | some r => ofInt r
    | none => ofInt (-1)

def evalReplaceAll (s x y : Str) : EvalResult :=
  if s = [] ∨ x = [] then ofString s
  else ofString (CodeString.replaceAllLoop s x y (s.length + 1) 0 [])

def evalPrefix (t s : Str) : EvalResult :=
  if s.length < t.length then .bool false else .bool (CodeString.substr s 0 t.length == t)

def evalSuffix (t s : Str) : EvalResult :=
  if s.length < t.length then .bool false else .bool (CodeString.suffix s t.length == t)

def evalItos (i : Int) : EvalResult := if i < 0 then ofString [] else ofString (decimal i.toNat)

def evalStoi (s : Str) : EvalResult :=
  if CodeString.isNumber s then ofInt (decimalValue s) else ofInt (-1)

def evalFromCode (i : Int) : EvalResult :=
  if h : 0 ≤ i ∧ i < numCodes then ofString [⟨i.toNat, by omega⟩] else ofString []

def evalToCode : Str → EvalResult
  | [c] => ofInt c.val
  | _ => ofInt (-1)

/-- The loop of `str.to_lower` and `str.to_upper`, for one character. -/
def convertChar (k : Kind) (c : CodePoint) : CodePoint :=
  match k with
  | .stringToUpper => if 97 ≤ c.val ∧ c.val ≤ 122 then Fin.ofNat numCodes (c.val - 32) else c
  | .stringToLower => if 65 ≤ c.val ∧ c.val ≤ 90 then Fin.ofNat numCodes (c.val + 32) else c
  | _ => c

/-- `bvrepeat`: concatenate `amount - 1` times. -/
def evalRepeat (amount : Nat) (v : BitVector) : EvalResult :=
  ofBitVector ((List.range (amount - 1)).foldlM (fun ret _ => ret.concat v) v)

def evalEqual : EvalResult → EvalResult → EvalResult
  | .bool a, .bool b => .bool (a == b)
  | .bitvector a, .bitvector b => .bool (decide (a = b))
  | .rational a, .rational b => .bool (a == b)
  | .string a, .string b => .bool (decide (a = b))
  | .uvalue m k, .uvalue m' k' => .bool (m == m' && k == k')
  | _, _ => .invalid

def evalIte : List EvalResult → EvalResult
  | [.bool b, r, r'] => if b then r else r'
  | _ => .invalid

def evalSbvToInt (size : Option Nat) (v : BitVector) : EvalResult :=
  match size with
  | some w => if v.isBitSet (w - 1) then ofInt (v.value - 2 ^ w) else ofInt v.value
  | none => .invalid

def evalSymbolic (i w : Rat) : EvalResult :=
  if fitsUnsignedInt w.num then ofBitVector (BitVector.make (toUnsignedInt w.num) i.num)
  else .invalid

/-- The switch over the kind of a node whose children are evaluated.  `size` is
the size in the type of the first child. -/
def evalKind (k : Kind) (size : Option Nat) (rs : List EvalResult) : EvalResult :=
  match k with
  | .not =>
    match rs with
    | [.bool b] => .bool (!b)
    | _ => .invalid
  | .and => fold (onBools (· && ·)) rs
  | .or => fold (onBools (· || ·)) rs
  | .implies => two (onBools fun a b => !a || b) rs
  | .xor => fold (onBools (· != ·)) rs
  | .add => fold (onRationals fun x y => .rational (x + y)) rs
  | .sub => two (onRationals fun x y => .rational (x - y)) rs
  | .neg => rational1 (fun x => .rational (-x)) rs
  | .mult | .nonlinearMult => fold (onRationals fun x y => .rational (x * y)) rs
  | .division | .divisionTotal | .intsDivision | .intsDivisionTotal | .intsModulus
  | .intsModulusTotal => fold (onRationals (divStep k)) rs
  | .geq => two (onRationals fun x y => .bool (decide (x ≥ y))) rs
  | .leq => two (onRationals fun x y => .bool (decide (x ≤ y))) rs
  | .gt => two (onRationals fun x y => .bool (decide (x > y))) rs
  | .lt => two (onRationals fun x y => .bool (decide (x < y))) rs
  | .abs => rational1 (fun x => .rational |x|) rs
  | .toReal => rational1 .rational rs
  | .toInteger => rational1 (fun x => ofInt ⌊x⌋) rs
  | .isInteger => rational1 (fun x => .bool (x.den == 1)) rs
  | .pow2 => rational1 evalPow2 rs
  | .intsIspow2 => rational1 (fun x => .bool (isPow2 x.num)) rs
  | .intsLog2 => rational1 (fun x => if x < 0 then .rational 0 else ofInt (length x.num - 1)) rs
  | .stringConcat => fold (onStrings fun s t => ofString (s ++ t)) rs
  | .stringLength => string1 (fun s => ofInt s.length) rs
  | .stringSubstr =>
    match rs with
    | [.string s, .rational i, .rational j] => evalSubstr s.chars i.num j.num
    | _ => .invalid
  | .seqNth =>
    match rs with
    | [.string s, .rational i] => evalSeqNth s.chars i.num
    | _ => .invalid
  | .stringUpdate =>
    match rs with
    | [.string s, .rational i, .string t] => evalUpdate s.chars i.num t.chars
    | _ => .invalid
  | .stringCharat =>
    match rs with
    | [.string s, .rational i] => evalCharat s.chars i.num
    | _ => .invalid
  | .stringContains => two (onStrings fun s t => .bool (CodeString.find s t 0).isSome) rs
  | .stringIndexof =>
    match rs with
    | [.string s, .string x, .rational i] => evalIndexof s.chars x.chars i.num
    | _ => .invalid
  | .stringReplace => string3 (fun s x y => ofString (CodeString.replace s x y)) rs
  | .stringReplaceAll => string3 evalReplaceAll rs
  | .stringPrefix => two (onStrings evalPrefix) rs
  | .stringSuffix => two (onStrings evalSuffix) rs
  | .stringItos => rational1 (fun i => evalItos i.num) rs
  | .stringStoi => string1 evalStoi rs
  | .stringFromCode => rational1 (fun i => evalFromCode i.num) rs
  | .stringToCode => string1 evalToCode rs
  | .stringRev => string1 (fun s => ofString s.reverse) rs
  | .stringToLower | .stringToUpper => string1 (fun s => ofString (s.map (convertChar k))) rs
  | .stringLeq => two (onStrings fun s t => .bool (CodeString.isLeq s t)) rs
  | .bitvectorNot => bitvector1 (fun v => .bitvector v.bitNot) rs
  | .bitvectorNeg => bitvector1 (fun v => .bitvector v.neg) rs
  | .bitvectorExtract high low => bitvector1 (fun v => ofBitVector (v.extract high low)) rs
  | .bitvectorConcat => fold (onBitvectors fun v u => ofBitVector (v.concat u)) rs
  | .bitvectorAdd => fold (onBitvectors fun v u => .bitvector (v.add u)) rs
  | .bitvectorMult => fold (onBitvectors fun v u => .bitvector (v.mul u)) rs
  | .bitvectorAnd => fold (onBitvectors fun v u => .bitvector (v.bitAnd u)) rs
  | .bitvectorOr => fold (onBitvectors fun v u => .bitvector (v.bitOr u)) rs
  | .bitvectorXor => fold (onBitvectors fun v u => .bitvector (v.bitXor u)) rs
  | .bitvectorUdiv => two (onBitvectors fun v u => .bitvector (v.unsignedDivTotal u)) rs
  | .bitvectorUrem => two (onBitvectors fun v u => .bitvector (v.unsignedRemTotal u)) rs
  | .bitvectorShl => two (onBitvectors fun v u => .bitvector (v.leftShift u)) rs
  | .bitvectorAshr => two (onBitvectors fun v u => .bitvector (v.arithRightShift u)) rs
  | .bitvectorUlt => two (onBitvectors fun v u => .bool (v.unsignedLessThan u)) rs
  | .bitvectorSlt => two (onBitvectors fun v u => .bool (v.signedLessThan u)) rs
  | .bitvectorSle => two (onBitvectors fun v u => .bool (v.signedLessThanEq u)) rs
  | .bitvectorUle => two (onBitvectors fun v u => .bool (v.unsignedLessThanEq u)) rs
  | .bitvectorUgt => two (onBitvectors fun v u => .bool (u.unsignedLessThan v)) rs
  | .bitvectorSgt => two (onBitvectors fun v u => .bool (u.signedLessThan v)) rs
  | .bitvectorSge => two (onBitvectors fun v u => .bool (u.signedLessThanEq v)) rs
  | .bitvectorUge => two (onBitvectors fun v u => .bool (u.unsignedLessThanEq v)) rs
  | .bitvectorRepeat amount => bitvector1 (evalRepeat amount) rs
  | .bitvectorSignExtend amount => bitvector1 (fun v => ofBitVector (v.signExtend amount)) rs
  | .bitvectorZeroExtend amount => bitvector1 (fun v => ofBitVector (v.zeroExtend amount)) rs
  | .equal => two evalEqual rs
  | .ite => evalIte rs
  | .bitvectorUbvToInt => bitvector1 (fun v => ofInt v.value) rs
  | .bitvectorSbvToInt => bitvector1 (evalSbvToInt size) rs
  | .intToBitvector w => rational1 (fun i => ofBitVector (BitVector.make w i.num)) rs
  | .constBitvectorSymbolic => two (onRationals evalSymbolic) rs
  | .bitvectorSize =>
    match size with
    | some w => ofInt w
    | none => .invalid
  | .other _ => .invalid

mutual

/-- `evalInternal`.  The size of a bit-vector does not depend on its value. -/
def evalInternal (Γ : Nat → Ty) (σ : List (Nat × Const)) : Node → EvalResult
  | .const c => evalConst c
  | .var n =>
    match σ.lookup n with
    | some c => evalConst c
    | none => .invalid
  | .app k cs =>
    let rs := evalChildren Γ σ cs
    if rs.any isInvalid ∧ k ≠ .bitvectorSize then .invalid
    else evalKind k (typeSizes Γ cs).head?.join rs

def evalChildren (Γ : Nat → Ty) (σ : List (Nat × Const)) : List Node → List EvalResult
  | [] => []
  | c :: cs => evalInternal Γ σ c :: evalChildren Γ σ cs

end

/-! ## Meaning -/

/-- The elements that the values of the uninterpreted sorts stand for.
Different values are different elements. -/
structure SortValues {Γ : Nat → Ty} (I : Interp Γ) where
  elem : ∀ m, Nat → Option (I.U m)
  elem_inj : ∀ {m k k' x}, elem m k = some x → elem m k' = some x → k = k'

section Meaning

variable {Γ : Nat → Ty} {I : Interp Γ}

def constVal (D : SortValues I) : Const → Option (Val I.U)
  | .boolean b => some (.bool b)
  | .integer z => some (.int z)
  | .rational q => some (.real q)
  | .bitvector v => some (.bitvec (BitVec.ofNatLT v.value v.value_lt))
  | .string s => some (.str s.chars)
  | .uninterpretedSortValue m k => (D.elem m k).map fun x => ⟨.usort m, x⟩
  | .other n => some ⟨Γ n, I.const n⟩

/-- An operator that is applied from left to right. -/
def foldVal {U : Nat → Type} (op : List (Val U) → Option (Val U)) : List (Val U) → Option (Val U)
  | [] => none
  | v :: vs => vs.foldlM (fun a b => op [a, b]) v

/-- An operator with an index before its argument. -/
def indexVal {U : Nat → Type} (op : List (Val U) → Option (Val U)) (i : Nat) :
    List (Val U) → Option (Val U)
  | [v] => op [.int i, v]
  | _ => none

/-- Extraction has two indices, the high one first. -/
def extractVal {U : Nat → Type} (op : List (Val U) → Option (Val U)) (high low : Nat) :
    List (Val U) → Option (Val U)
  | [v] => if low ≤ high then op [.int high, .int low, v] else none
  | _ => none

/-- `seq.nth` is typed for sequences only, not for strings. -/
noncomputable def nthOp (I : Interp Γ) : List (Val I.U) → Option (Val I.U)
  | [⟨.seq .char, _⟩, _] => none
  | vs => symVal I .seqNth vs

variable (I) in
/-- The SMT-LIB meaning of a kind. -/
noncomputable def kindVal : Kind → List (Val I.U) → Option (Val I.U)
  | .not => symVal I .not
  | .and => foldVal (symVal I .and)
  | .or => foldVal (symVal I .or)
  | .implies => symVal I .imp
  | .xor => foldVal (symVal I .xor)
  | .add => foldVal (symVal I .plus)
  | .sub => symVal I .minus
  | .neg => symVal I .uminus
  | .mult | .nonlinearMult => foldVal (symVal I .times)
  | .division => foldVal (symVal I .qdiv)
  | .divisionTotal => foldVal (symVal I .qdivTotal)
  | .intsDivision => foldVal (symVal I .div)
  | .intsDivisionTotal => foldVal (symVal I .divTotal)
  | .intsModulus => foldVal (symVal I .mod)
  | .intsModulusTotal => foldVal (symVal I .modTotal)
  | .geq => symVal I .geq
  | .leq => symVal I .leq
  | .gt => symVal I .gt
  | .lt => symVal I .lt
  | .abs => symVal I .abs
  | .toReal => symVal I .toReal
  | .toInteger => symVal I .toInt
  | .isInteger => symVal I .isInt
  | .pow2 => symVal I .intPow2
  | .intsIspow2 => symVal I .intIspow2
  | .intsLog2 => symVal I .intLog2
  | .stringConcat => foldVal (symVal I .strConcat)
  | .stringLength => symVal I .strLen
  | .stringSubstr => symVal I .strSubstr
  | .seqNth => nthOp I
  | .stringUpdate => symVal I .strUpdate
  | .stringCharat => symVal I .strAt
  | .stringContains => symVal I .strContains
  | .stringIndexof => symVal I .strIndexof
  | .stringReplace => symVal I .strReplace
  | .stringReplaceAll => symVal I .strReplaceAll
  | .stringPrefix => symVal I .strPrefixof
  | .stringSuffix => symVal I .strSuffixof
  | .stringItos => symVal I .strFromInt
  | .stringStoi => symVal I .strToInt
  | .stringFromCode => symVal I .strFromCode
  | .stringToCode => symVal I .strToCode
  | .stringRev => symVal I .strRev
  | .stringToLower => symVal I .strToLower
  | .stringToUpper => symVal I .strToUpper
  | .stringLeq => symVal I .strLe
  | .bitvectorNot => symVal I .bvnot
  | .bitvectorNeg => symVal I .bvneg
  | .bitvectorExtract high low => extractVal (symVal I .extract) high low
  | .bitvectorConcat => foldVal (symVal I .concat)
  | .bitvectorAdd => foldVal (symVal I .bvadd)
  | .bitvectorMult => foldVal (symVal I .bvmul)
  | .bitvectorAnd => foldVal (symVal I .bvand)
  | .bitvectorOr => foldVal (symVal I .bvor)
  | .bitvectorXor => foldVal (symVal I .bvxor)
  | .bitvectorUdiv => symVal I .bvudiv
  | .bitvectorUrem => symVal I .bvurem
  | .bitvectorShl => symVal I .bvshl
  | .bitvectorAshr => symVal I .bvashr
  | .bitvectorUlt => symVal I .bvult
  | .bitvectorSlt => symVal I .bvslt
  | .bitvectorSle => symVal I .bvsle
  | .bitvectorUle => symVal I .bvule
  | .bitvectorUgt => symVal I .bvugt
  | .bitvectorSgt => symVal I .bvsgt
  | .bitvectorSge => symVal I .bvsge
  | .bitvectorUge => symVal I .bvuge
  | .bitvectorRepeat amount => if 0 < amount then indexVal (symVal I .bvrepeat) amount else fun _ => none
  | .bitvectorSignExtend amount => indexVal (symVal I .signExtend) amount
  | .bitvectorZeroExtend amount => indexVal (symVal I .zeroExtend) amount
  | .equal => symVal I .eq
  | .ite => symVal I .ite
  | .bitvectorUbvToInt => symVal I .ubvToInt
  | .bitvectorSbvToInt => symVal I .sbvToInt
  | .intToBitvector size => indexVal (symVal I .intToBv) size
  | .constBitvectorSymbolic => symVal I .bv
  | .bitvectorSize => symVal I .bvsize
  | .other f => vApply ⟨Γ f, I.const f⟩

mutual

noncomputable def value (D : SortValues I) : Node → Option (Val I.U)
  | .const c => constVal D c
  | .var n => some ⟨Γ n, I.const n⟩
  | .app k cs => (values D cs).bind (kindVal I k)

/-- The values of the children. -/
noncomputable def values (D : SortValues I) : List Node → Option (List (Val I.U))
  | [] => some []
  | c :: cs => (value D c).bind fun v => (values D cs).map (v :: ·)

end

def Agrees (D : SortValues I) (r : EvalResult) (v : Val I.U) : Prop :=
  r = .invalid ∨ ∃ c, r.toNode v.1 = some c ∧ constVal D c = some v

end Meaning

/-- The evaluator is right on a node: a constant that it returns is the value of
the node under the substitution. -/
def Sound {Γ : Nat → Ty} (σ : Subst Γ) (n : Node) : Prop :=
  ∀ (I : Interp Γ) (D : SortValues I) (v : Val I.U), value D (n.subst σ.pairs) = some v →
    Agrees D (evalInternal Γ σ.pairs n) v

/-- The start of a search may be cut to 32 bits: it fits, or nothing is found
from the cut position on. -/
def StartFits (s x : Str) (i : Int) : Prop :=
  i < 2 ^ 32 ∨ Library.Words.indexof s x (toUnsignedInt i) = -1

end EthosCpc.Cvc5.Evaluator
