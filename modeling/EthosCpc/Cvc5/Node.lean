import EthosCpc.Semantics.Arith

/-!
# Nodes of cvc5

The nodes that the arithmetic checkers of cvc5 inspect: a kind and a list of
children, with constants at the leaves.  An operator of any other theory and a
declared function or predicate have the kind `applyUf`, since a checker never
looks behind it.

Types follow `theory/arith/theory_arith_type_rules.cpp`: sums, products and
comparisons may mix `Int` and `Real`.  The value of a node is taken in an
interpretation of the signature, and a mixed operation computes with the real
numbers behind its arguments.
-/

namespace EthosCpc.Cvc5

/-! ## Syntax -/

/-- The kinds that the checkers distinguish. -/
inductive Kind
  | equal | distinct | lt | leq | gt | geq
  | add | sub | neg | mult | nonlinearMult | toReal | division | divisionTotal | abs
  | not | and | or | implies
  | bvAdd | bvSub | bvNeg | bvMult
  | applyUf (f : Nat)
  deriving DecidableEq, Repr

/-- Nodes. -/
inductive Node
  | constBoolean (b : Bool)
  | constInteger (z : Int)
  | constRational (q : Rat)
  | constBitvector (w : Nat) (v : BitVec w)
  | app (k : Kind) (cs : List Node)

namespace Node

mutual

/-- Equality of nodes is decided child by child. -/
def decEq : (a b : Node) → Decidable (a = b)
  | .constBoolean b, .constBoolean c =>
    if h : b = c then isTrue (h ▸ rfl) else isFalse fun heq => h (constBoolean.inj heq)
  | .constInteger z, .constInteger z' =>
    if h : z = z' then isTrue (h ▸ rfl) else isFalse fun heq => h (constInteger.inj heq)
  | .constRational q, .constRational q' =>
    if h : q = q' then isTrue (h ▸ rfl) else isFalse fun heq => h (constRational.inj heq)
  | .constBitvector w v, .constBitvector w' v' =>
    if h : w = w' then
      if hv : h ▸ v = v' then isTrue (by subst h; subst hv; rfl)
      else isFalse fun heq => hv (by cases heq; rfl)
    else isFalse fun heq => h (constBitvector.inj heq).1
  | .app k cs, .app k' cs' =>
    if h : k = k' then
      match decEqList cs cs' with
      | isTrue hcs => isTrue (h ▸ hcs ▸ rfl)
      | isFalse hcs => isFalse fun heq => hcs (app.inj heq).2
    else isFalse fun heq => h (app.inj heq).1
  | .constBoolean _, .constInteger _ | .constBoolean _, .constRational _
  | .constBoolean _, .constBitvector _ _ | .constBoolean _, .app _ _
  | .constInteger _, .constBoolean _ | .constInteger _, .constRational _
  | .constInteger _, .constBitvector _ _ | .constInteger _, .app _ _
  | .constRational _, .constBoolean _ | .constRational _, .constInteger _
  | .constRational _, .constBitvector _ _ | .constRational _, .app _ _
  | .constBitvector _ _, .constBoolean _ | .constBitvector _ _, .constInteger _
  | .constBitvector _ _, .constRational _ | .constBitvector _ _, .app _ _
  | .app _ _, .constBoolean _ | .app _ _, .constInteger _
  | .app _ _, .constRational _ | .app _ _, .constBitvector _ _ => isFalse (by simp)

def decEqList : (as bs : List Node) → Decidable (as = bs)
  | [], [] => isTrue rfl
  | [], _ :: _ | _ :: _, [] => isFalse (by simp)
  | a :: as, b :: bs =>
    match decEq a b with
    | isTrue h =>
      match decEqList as bs with
      | isTrue h' => isTrue (h ▸ h' ▸ rfl)
      | isFalse h' => isFalse fun heq => h' (List.cons.inj heq).2
    | isFalse h => isFalse fun heq => h (List.cons.inj heq).1

end

instance : DecidableEq Node := decEq

@[elab_as_elim, induction_eliminator]
lemma rec' {motive : Node → Prop} (constBoolean : ∀ b, motive (.constBoolean b))
    (constInteger : ∀ z, motive (.constInteger z))
    (constRational : ∀ q, motive (.constRational q))
    (constBitvector : ∀ w v, motive (.constBitvector w v))
    (app : ∀ k cs, (∀ c ∈ cs, motive c) → motive (.app k cs)) (n : Node) : motive n :=
  @Node.rec motive (fun cs => ∀ c ∈ cs, motive c) constBoolean constInteger constRational
    constBitvector app (by simp) (fun c cs hc hcs => by simpa using ⟨hc, hcs⟩) n

/-- `getKind`, for nodes that are no constants. -/
def kind? : Node → Option Kind
  | .app k _ => some k
  | _ => none

def children : Node → List Node
  | .app _ cs => cs
  | _ => []

/-- `n[i]`. -/
def child? (n : Node) (i : Nat) : Option Node := n.children[i]?

def isConst : Node → Bool
  | .app _ _ => false
  | _ => true

def rational? : Node → Option Rat
  | .constInteger z => some z
  | .constRational q => some q
  | _ => none

end Node

/-! ## Types -/

/-- The type of an arithmetic operation: `Int` when all arguments are. -/
def arithTy (Ts : List Ty) : Option Ty :=
  if Ts.all Ty.isArithType then some (if Ts.all (· = .int) then .int else .real) else none

/-- The result of a function of type `T` on arguments of the given types. -/
def fnTy : Ty → List Ty → Option Ty
  | T, [] => some T
  | .fn A B, T :: Ts => if T = A then fnTy B Ts else none
  | _, _ :: _ => none

/-- The type of a bit-vector operation. -/
def bvTy : List Ty → Option Ty
  | .bitvec w :: Ts => if Ts.all (· = .bitvec w) then some (.bitvec w) else none
  | _ => none

/-- The type rule of a kind. -/
def kindTy (Γ : Nat → Ty) : Kind → List Ty → Option Ty
  | .equal, [A, B] => if B = A then some .bool else none
  | .distinct, A :: B :: Ts => if (B :: Ts).all (· = A) then some .bool else none
  | .lt, [A, B] | .leq, [A, B] | .gt, [A, B] | .geq, [A, B] => (arithTy [A, B]).map fun _ => .bool
  | .add, Ts | .mult, Ts | .nonlinearMult, Ts => if 2 ≤ Ts.length then arithTy Ts else none
  | .sub, [A, B] => arithTy [A, B]
  | .neg, [A] | .abs, [A] => arithTy [A]
  | .toReal, [.int] => some .real
  | .division, [A, B] | .divisionTotal, [A, B] => (arithTy [A, B]).map fun _ => .real
  | .not, [.bool] => some .bool
  | .and, Ts | .or, Ts => if 2 ≤ Ts.length ∧ Ts.all (· = .bool) then some .bool else none
  | .implies, [.bool, .bool] => some .bool
  | .bvAdd, Ts | .bvMult, Ts => if 2 ≤ Ts.length then bvTy Ts else none
  | .bvSub, [A, B] => bvTy [A, B]
  | .bvNeg, [A] => bvTy [A]
  | .applyUf f, Ts => fnTy (Γ f) Ts
  | _, _ => none

mutual

/-- `getType`. -/
def Node.typeOf (Γ : Nat → Ty) : Node → Option Ty
  | .constBoolean _ => some .bool
  | .constInteger _ => some .int
  | .constRational _ => some .real
  | .constBitvector w _ => some (.bitvec w)
  | .app k cs => (Node.typesOf Γ cs).bind (kindTy Γ k)

/-- The types of the children. -/
def Node.typesOf (Γ : Nat → Ty) : List Node → Option (List Ty)
  | [] => some []
  | c :: cs => (Node.typeOf Γ c).bind fun T => (Node.typesOf Γ cs).map (T :: ·)

end

/-! ## Values -/

section Shapes

variable {U : Nat → Type}

/-- The real number of an arithmetic value. -/
noncomputable def numOf : Val U → Option ℝ
  | ⟨.int, z⟩ => some (Int.cast z)
  | ⟨.real, r⟩ => some r
  | _ => none

/-- A binary operation, of reals unless both arguments are integers. -/
noncomputable def vNum2 (fi : Int → Int → Int) (fr : ℝ → ℝ → ℝ) (v w : Val U) : Option (Val U) :=
  match v, w with
  | ⟨.int, x⟩, ⟨.int, y⟩ => some (.int (fi x y))
  | v, w => (numOf v).bind fun x => (numOf w).map fun y => .real (fr x y)

/-- An `n`-ary operation with its unit. -/
noncomputable def vNumFold (fi : Int → Int → Int) (fr : ℝ → ℝ → ℝ) (u : Int) :
    List (Val U) → Option (Val U)
  | [] => some (.int u)
  | v :: vs => (vNumFold fi fr u vs).bind (vNum2 fi fr v)

/-- A relation of the real numbers of two values. -/
noncomputable def vNumRel (p : ℝ → ℝ → Prop) : List (Val U) → Option (Val U)
  | [v, w] => (numOf v).bind fun x => (numOf w).map fun y => .bool (truth (p x y))
  | _ => none

noncomputable def vNumDiv (f : ℝ → ℝ → ℝ) : List (Val U) → Option (Val U)
  | [v, w] => (numOf v).bind fun x => (numOf w).map fun y => .real (f x y)
  | _ => none

/-- Pairwise different values of one type. -/
noncomputable def vDistinct (vs : List (Val U)) : Option (Val U) :=
  some (.bool (truth (vs.Pairwise (· ≠ ·))))

/-- An `n`-ary connective with its unit. -/
def vBoolFold (f : Bool → Bool → Bool) (u : Bool) : List (Val U) → Option (Val U)
  | [] => some (.bool u)
  | v :: vs => (vBoolFold f u vs).bind fun w => vBool2 f [v, w]

/-- An `n`-ary bit-vector operation. -/
def vBvFold (f : ∀ w, BitVec w → BitVec w → BitVec w) : List (Val U) → Option (Val U)
  | [] => none
  | v :: vs => vs.foldl (fun acc w => acc.bind fun a => vBv2 (fun n x y => .bitvec (f n x y)) [a, w])
      (some v)

/-- Apply a function value to a list of values. -/
def vApply : Val U → List (Val U) → Option (Val U)
  | f, [] => some f
  | ⟨.fn A B, f⟩, ⟨T, x⟩ :: vs =>
    if h : T = A then vApply ⟨B, (f : Dom U A → Dom U B) (h ▸ x)⟩ vs else none
  | _, _ :: _ => none

end Shapes

section Eval

variable {Γ : Nat → Ty} (I : Interp Γ)

/-- The meaning of a kind. -/
noncomputable def kindVal : Kind → List (Val I.U) → Option (Val I.U)
  | .equal => vEq
  | .distinct => vDistinct
  | .lt => vNumRel (· < ·)
  | .leq => vNumRel (· ≤ ·)
  | .gt => vNumRel (· > ·)
  | .geq => vNumRel (· ≥ ·)
  | .add => vNumFold (· + ·) (· + ·) 0
  | .sub => fun vs => match vs with
      | [v, w] => vNum2 (· - ·) (· - ·) v w
      | _ => none
  | .neg => vArith1 (- ·) (- ·)
  | .mult | .nonlinearMult => vNumFold (· * ·) (· * ·) 1
  | .toReal => vToReal
  | .division => vNumDiv (realDiv I)
  | .divisionTotal => vNumDiv fun x y => x / y
  | .abs => vArith1 (|·|) (|·|)
  | .not => vBool1 (!·)
  | .and => vBoolFold (· && ·) true
  | .or => vBoolFold (· || ·) false
  | .implies => vBool2 fun x y => !x || y
  | .bvAdd => vBvFold fun _ x y => x + y
  | .bvSub => vBvFold fun _ x y => x - y
  | .bvNeg => vBv1 fun _ x => .bitvec (-x)
  | .bvMult => vBvFold fun _ x y => x * y
  | .applyUf f => vApply ⟨Γ f, I.const f⟩

mutual

/-- The value of a node. -/
noncomputable def eval : Node → Option (Val I.U)
  | .constBoolean b => some (.bool b)
  | .constInteger z => some (.int z)
  | .constRational q => some (.real q)
  | .constBitvector _ v => some (.bitvec v)
  | .app k cs => (evalList cs).bind (kindVal I k)

/-- The values of the children. -/
noncomputable def evalList : List Node → Option (List (Val I.U))
  | [] => some []
  | c :: cs => (eval c).bind fun v => (evalList cs).map (v :: ·)

end

/-- A formula that is true. -/
def Holds (F : Node) : Prop := eval I F = some (.bool true)

end Eval

end EthosCpc.Cvc5
