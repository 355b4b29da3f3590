import EthosCpc.Semantics.Value

/-!
# Normal forms and absorption in cvc5

The checkers for `ACI_NORM` and `ABSORB` in `expr/aci_norm.cpp`.  A node is an
application of one of the operators that they classify, or a leaf: one of the
constants that they build, or a node of another kind, which they only compare.

The work stack of `getACINormalForm` holds the operands that are left, with
those of a flattened node on top, so that the loop is a recursion over nodes.
The order of nodes is a parameter.  The attributes are maps from nodes, which
every call reads and extends.
-/

namespace EthosCpc.Cvc5

/-! ## Nodes -/

/-- The operators that are at least associative. -/
inductive AciKind
  | or | and | sepStar | regexpUnion | regexpInter | bitvectorAnd | bitvectorOr | bitvectorXor
  | bitvectorConcat | stringConcat | regexpConcat | finiteFieldAdd | finiteFieldMult
  deriving DecidableEq, Repr

/-- Types: those of the signature, and the finite fields. -/
inductive AciType
  | base (T : Ty)
  | finiteField (n : Nat)
  deriving DecidableEq, Repr

/-- Nodes that are not flattened.  A node `other` has a kind that no operator of `AciKind` has. -/
inductive AciLeaf (α : Type)
  | constBoolean (b : Bool)
  | constBitvector (w : Nat) (v : BitVec w)
  | constFiniteField (n : Nat) (v : ZMod n)
  | emptyWord (T : Ty)
  /-- `(str.to_re "")`. -/
  | emptyRegexp
  | regexpNone
  | regexpAll
  /-- The skolem `BV_EMPTY`. -/
  | bvEmpty
  | other (T : AciType) (x : α)
  deriving DecidableEq

/-- Nodes. -/
inductive AciNode (α : Type)
  | leaf (l : AciLeaf α)
  | app (k : AciKind) (cs : List (AciNode α))

variable {α : Type}

namespace AciNode

section Decidable

variable [DecidableEq α]

mutual

/-- Equality of nodes is decided child by child. -/
def decEq : (a b : AciNode α) → Decidable (a = b)
  | .leaf l, .leaf l' =>
    if h : l = l' then isTrue (h ▸ rfl) else isFalse fun heq => h (leaf.inj heq)
  | .app k cs, .app k' cs' =>
    if h : k = k' then
      match decEqList cs cs' with
      | isTrue hcs => isTrue (h ▸ hcs ▸ rfl)
      | isFalse hcs => isFalse fun heq => hcs (app.inj heq).2
    else isFalse fun heq => h (app.inj heq).1
  | .leaf _, .app _ _ | .app _ _, .leaf _ => isFalse (by simp)

def decEqList : (as bs : List (AciNode α)) → Decidable (as = bs)
  | [], [] => isTrue rfl
  | [], _ :: _ | _ :: _, [] => isFalse (by simp)
  | a :: as, b :: bs =>
    match decEq a b with
    | isTrue h =>
      match decEqList as bs with
      | isTrue h' => isTrue (h ▸ h' ▸ rfl)
      | isFalse h' => isFalse fun heq => h' (List.cons.inj heq).2
    | isFalse h => isFalse fun heq => h (List.cons.inj heq).1

end

instance : DecidableEq (AciNode α) := decEq

end Decidable

@[elab_as_elim, induction_eliminator]
lemma rec' {motive : AciNode α → Prop} (leaf : ∀ l, motive (.leaf l))
    (app : ∀ k cs, (∀ c ∈ cs, motive c) → motive (.app k cs)) (n : AciNode α) : motive n :=
  @AciNode.rec α motive (fun cs => ∀ c ∈ cs, motive c) leaf app (by simp)
    (fun c cs hc hcs => by simpa using ⟨hc, hcs⟩) n

/-- `getKind`, for the operators. -/
def kind? : AciNode α → Option AciKind
  | .app k _ => some k
  | .leaf _ => none

def children : AciNode α → List (AciNode α)
  | .app _ cs => cs
  | .leaf _ => []

end AciNode

/-! ## Types -/

namespace AciType

def common : List AciType → Option AciType
  | [] => none
  | T :: Ts => if Ts.all (· = T) then some T else none

def widths : List AciType → Option Nat
  | [] => some 0
  | .base (.bitvec w) :: Ts => (widths Ts).map (w + ·)
  | _ => none

/-- Is the type a type of the arguments of the operator? -/
def admits : AciKind → AciType → Bool
  | .or, .base .bool | .and, .base .bool | .sepStar, .base .bool => true
  | .regexpUnion, .base .reglan | .regexpInter, .base .reglan | .regexpConcat, .base .reglan => true
  | .bitvectorAnd, .base (.bitvec _) | .bitvectorOr, .base (.bitvec _) => true
  | .bitvectorXor, .base (.bitvec _) => true
  | .stringConcat, .base (.seq _) => true
  | .finiteFieldAdd, .finiteField _ | .finiteFieldMult, .finiteField _ => true
  | _, _ => false

/-- The type rule of an operator.  All but `BITVECTOR_CONCAT` have arguments of one type. -/
def ofArgs (k : AciKind) (Ts : List AciType) : Option AciType :=
  if k = .bitvectorConcat then
    if Ts = [] then none else (widths Ts).map fun w => .base (.bitvec w)
  else (common Ts).bind fun T => if admits k T then some T else none

end AciType

def AciLeaf.typeOf : AciLeaf α → Option AciType
  | .constBoolean _ => some (.base .bool)
  | .constBitvector w _ => some (.base (.bitvec w))
  | .constFiniteField n _ => some (.finiteField n)
  | .emptyWord (.seq T) => some (.base (.seq T))
  | .emptyWord _ => none
  | .emptyRegexp | .regexpNone | .regexpAll => some (.base .reglan)
  | .bvEmpty => some (.base (.bitvec 0))
  | .other T _ => some T

namespace AciNode

mutual

/-- `getType`. -/
def typeOf : AciNode α → Option AciType
  | .leaf l => l.typeOf
  | .app k cs => (typesOf cs).bind (AciType.ofArgs k)

def typesOf : List (AciNode α) → Option (List AciType)
  | [] => some []
  | c :: cs => (typeOf c).bind fun T => (typesOf cs).map (T :: ·)

end

end AciNode

/-! ## Operators -/

/-- The cases of `getNullTerminator` for the operators. -/
def getNullTerminator : AciKind → AciType → Option (AciLeaf α)
  | .or, _ => some (.constBoolean false)
  | .and, _ => some (.constBoolean true)
  | .sepStar, _ => some (.constBoolean true)
  | .stringConcat, .base (.seq T) => some (.emptyWord (.seq T))
  | .regexpConcat, _ => some .emptyRegexp
  | .regexpUnion, _ => some .regexpNone
  | .regexpInter, _ => some .regexpAll
  | .bitvectorAnd, .base (.bitvec w) => some (.constBitvector w (BitVec.allOnes w))
  | .bitvectorOr, .base (.bitvec w) => some (.constBitvector w 0#w)
  | .bitvectorXor, .base (.bitvec w) => some (.constBitvector w 0#w)
  | .bitvectorConcat, _ => some .bvEmpty
  | .finiteFieldAdd, .finiteField n => some (.constFiniteField n 0)
  | .finiteFieldMult, .finiteField n => some (.constFiniteField n 1)
  | _, _ => none

def isAssocCommIdem : AciKind → Bool
  | .or | .and | .sepStar | .regexpUnion | .regexpInter | .bitvectorAnd | .bitvectorOr
  | .finiteFieldAdd | .finiteFieldMult => true
  | _ => false

def isAssocComm (k : AciKind) : Bool := k = .bitvectorXor

def isAssoc : AciKind → Bool
  | .bitvectorConcat | .stringConcat | .regexpConcat => true
  | k => isAssocCommIdem k

def getZeroElement : AciKind → AciType → Option (AciLeaf α)
  | .or, _ => some (.constBoolean true)
  | .and, _ => some (.constBoolean false)
  | .sepStar, _ => some (.constBoolean false)
  | .regexpUnion, _ => some .regexpAll
  | .regexpInter, _ => some .regexpNone
  | .regexpConcat, _ => some .regexpNone
  | .bitvectorOr, .base (.bitvec w) => some (.constBitvector w (BitVec.allOnes w))
  | .bitvectorAnd, .base (.bitvec w) => some (.constBitvector w 0#w)
  | _, _ => none

/-- `isAbsorb`, on kinds. -/
def isAbsorbKind : AciKind → Bool
  | .or | .and | .regexpUnion | .regexpInter | .regexpConcat | .bitvectorAnd | .bitvectorOr => true
  | _ => false

/-! ## Normal forms -/

section Checker

variable [DecidableEq α]

mutual

/-- One operand taken from the work stack: dropped, flattened or added to the children. -/
def addOperand (k : AciKind) (nt : AciLeaf α) (aci : Bool) (cur : AciNode α)
    (children : List (AciNode α)) : List (AciNode α) :=
  if cur = .leaf nt then children
  else
    match cur with
    | .app k' cs =>
      if k' = k then addOperands k nt aci cs children
      else if aci && children.contains (.app k' cs) then children
      else children ++ [.app k' cs]
    | .leaf l =>
      if aci && children.contains (.leaf l) then children else children ++ [.leaf l]

/-- The operands on the work stack. -/
def addOperands (k : AciKind) (nt : AciLeaf α) (aci : Bool) :
    List (AciNode α) → List (AciNode α) → List (AciNode α)
  | [], children => children
  | cur :: toProcess, children =>
    addOperands k nt aci toProcess (addOperand k nt aci cur children)

end

variable (le : AciNode α → AciNode α → Bool)

def sortNodes (children : List (AciNode α)) : List (AciNode α) :=
  children.insertionSort fun a b => le a b = true

/-- What `getACINormalForm` computes where nothing is cached. -/
def computeACINormalForm (a : AciNode α) : AciNode α :=
  match a with
  | .leaf _ => a
  | .app k cs =>
    let aci := isAssocCommIdem k
    let ac := isAssocComm k || aci
    if !ac && !isAssoc k then a
    else
      match a.typeOf.bind (getNullTerminator k) with
      | none => a
      | some nt =>
        let children := addOperands k nt aci cs []
        match if ac then sortNodes le children else children with
        | [] => .leaf nt
        | [c] => c
        | children => .app k children

/-- The attributes of nodes: normal forms, and the computed absorption flags. -/
structure Attributes (α : Type) where
  normalForm : AciNode α → Option (AciNode α)
  absorb : AciNode α → Option Bool

/-- No attribute is set. -/
def Attributes.empty : Attributes α := ⟨fun _ => none, fun _ => none⟩

def getACINormalForm (s : Attributes α) (a : AciNode α) : AciNode α × Attributes α :=
  match s.normalForm a with
  | some an => (an, s)
  | none =>
    let an := computeACINormalForm le a
    (an, { s with normalForm := Function.update s.normalForm a (some an) })

def isACINorm (s : Attributes α) (a b : AciNode α) : Bool × Attributes α :=
  let (an, s) := getACINormalForm le s a
  let (bn, s) := getACINormalForm le s b
  (if a.kind? = b.kind? ∧ a.kind?.isSome then an = bn else a = b ∨ an = b, s)

/-! ## Absorption -/

mutual

/-- The post-order traversal of `isAbsorb`, below applications of `k`. -/
def absorbVisit (k : AciKind) (zero : Option (AciLeaf α)) (cur : AciNode α)
    (flags : AciNode α → Option Bool) : AciNode α → Option Bool :=
  match cur with
  | .leaf _ => flags
  | .app k' cs =>
    if k' ≠ k ∨ (flags (.app k' cs)).isSome then flags
    else
      let flags := absorbVisits k zero cs flags
      let isAnnil := cs.any fun cc =>
        zero.map .leaf = some cc || (cc.kind? = some k && flags cc = some true)
      Function.update flags (.app k' cs) (some isAnnil)

/-- The children of a node, of which the last is on top of the stack. -/
def absorbVisits (k : AciKind) (zero : Option (AciLeaf α)) :
    List (AciNode α) → (AciNode α → Option Bool) → AciNode α → Option Bool
  | [], flags => flags
  | c :: cs, flags => absorbVisit k zero c (absorbVisits k zero cs flags)

end

def isAbsorb (s : Attributes α) (a : AciNode α) (zero : Option (AciLeaf α)) :
    Bool × Attributes α :=
  match a.kind? with
  | none => (false, s)
  | some k =>
    if isAbsorbKind k then
      let flags := absorbVisit k zero a s.absorb
      (flags a = some true, { s with absorb := flags })
    else (false, s)

/-- The zero element that the proof checker passes to `isAbsorb`. -/
def zeroOf (a : AciNode α) : Option (AciLeaf α) :=
  a.kind?.bind fun k => a.typeOf.bind (getZeroElement k)

/-! ## Runs -/

/-- The attributes after calls on well-typed nodes. -/
inductive Reachable : Attributes α → Prop
  | empty : Reachable Attributes.empty
  | isACINorm {s : Attributes α} {a b : AciNode α} {T : AciType} (h : Reachable s)
      (ha : a.typeOf = some T) (hb : b.typeOf = some T) : Reachable (isACINorm le s a b).2
  | isAbsorb {s : Attributes α} {a : AciNode α} {T : AciType} (h : Reachable s)
      (ha : a.typeOf = some T) : Reachable (isAbsorb s a (zeroOf a)).2

end Checker

end EthosCpc.Cvc5
