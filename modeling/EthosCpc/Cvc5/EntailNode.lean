import EthosCpc.Cvc5.Node
import EthosCpc.Semantics.SeqOps

/-!
# Nodes of the arithmetic entailment of strings

The nodes that `theory/strings/arith_entail.cpp` inspects.  A node stores its
kind and the children in memory: for a parameterized kind, `applyUf` here, the
first of them is the operator, and the children that a loop over the node sees
are the others.  A node whose operator is no function can be built; it has no
type and no value.

An operator of another theory has the kind `other` with a symbol for its
meaning.  Sums and products have integers only or reals only.
-/

namespace EthosCpc.Cvc5.Entail

/-! ## Syntax -/

/-- The kinds that the entailment tests distinguish. -/
inductive Kind
  | equal | geq | not
  | add | sub | neg | mult | nonlinearMult | toReal | division | divisionTotal
  | strLen | strConcat | strSubstr | strReplace | strItos | strIndexof | strStoi
  | seqUnit | strUnit
  | applyUf
  | other (f : Nat)
  deriving DecidableEq, Repr

/-- Nodes. -/
inductive Node
  | constBoolean (b : Bool)
  | constInteger (z : Int)
  | constRational (q : Rat)
  | constString (s : Str)
  | constSequence (T : Ty) (es : List Node)
  | var (n : Nat)
  | app (k : Kind) (ds : List Node)

namespace Node

mutual

/-- Equality of nodes is decided child by child. -/
def decEq : (a b : Node) → Decidable (a = b)
  | .constBoolean b, .constBoolean c =>
    if h : b = c then isTrue (h ▸ rfl) else isFalse fun heq => h (constBoolean.inj heq)
  | .constInteger z, .constInteger z' =>
    if h : z = z' then isTrue (h ▸ rfl) else isFalse fun heq => h (constInteger.inj heq)
  | .constRational q, .constRational q' =>
    if h : q = q' then isTrue (h ▸ rfl) else isFalse fun heq => h (constRational.inj heq)
  | .constString s, .constString s' =>
    if h : s = s' then isTrue (h ▸ rfl) else isFalse fun heq => h (constString.inj heq)
  | .constSequence T es, .constSequence T' es' =>
    if h : T = T' then
      match decEqList es es' with
      | isTrue hes => isTrue (h ▸ hes ▸ rfl)
      | isFalse hes => isFalse fun heq => hes (constSequence.inj heq).2
    else isFalse fun heq => h (constSequence.inj heq).1
  | .var n, .var m => if h : n = m then isTrue (h ▸ rfl) else isFalse fun heq => h (var.inj heq)
  | .app k ds, .app k' ds' =>
    if h : k = k' then
      match decEqList ds ds' with
      | isTrue hds => isTrue (h ▸ hds ▸ rfl)
      | isFalse hds => isFalse fun heq => hds (app.inj heq).2
    else isFalse fun heq => h (app.inj heq).1
  | .constBoolean _, .constInteger _ | .constBoolean _, .constRational _
  | .constBoolean _, .constString _ | .constBoolean _, .constSequence _ _
  | .constBoolean _, .var _ | .constBoolean _, .app _ _
  | .constInteger _, .constBoolean _ | .constInteger _, .constRational _
  | .constInteger _, .constString _ | .constInteger _, .constSequence _ _
  | .constInteger _, .var _ | .constInteger _, .app _ _
  | .constRational _, .constBoolean _ | .constRational _, .constInteger _
  | .constRational _, .constString _ | .constRational _, .constSequence _ _
  | .constRational _, .var _ | .constRational _, .app _ _
  | .constString _, .constBoolean _ | .constString _, .constInteger _
  | .constString _, .constRational _ | .constString _, .constSequence _ _
  | .constString _, .var _ | .constString _, .app _ _
  | .constSequence _ _, .constBoolean _ | .constSequence _ _, .constInteger _
  | .constSequence _ _, .constRational _ | .constSequence _ _, .constString _
  | .constSequence _ _, .var _ | .constSequence _ _, .app _ _
  | .var _, .constBoolean _ | .var _, .constInteger _ | .var _, .constRational _
  | .var _, .constString _ | .var _, .constSequence _ _ | .var _, .app _ _
  | .app _ _, .constBoolean _ | .app _ _, .constInteger _ | .app _ _, .constRational _
  | .app _ _, .constString _ | .app _ _, .constSequence _ _ | .app _ _, .var _ =>
    isFalse (by simp)

def decEqList : (as bs : List Node) → Decidable (as = bs)
  | [], [] => isTrue rfl
  | [], _ :: _ | _ :: _, [] => isFalse (by simp)
  | a :: as, b :: bs =>
    match decEq a b with
    | isTrue h =>
      match decEqList as bs with
      | isTrue h' => isTrue (h ▸ h' ▸ rfl)
      | isFalse h' => isFalse fun heq => h' (List.cons.inj heq).2
    | isFalse h => isFalse fun heq => h (List.cons.inj heq).1

end

instance : DecidableEq Node := decEq

@[elab_as_elim, induction_eliminator]
lemma rec' {motive : Node → Prop} (constBoolean : ∀ b, motive (.constBoolean b))
    (constInteger : ∀ z, motive (.constInteger z))
    (constRational : ∀ q, motive (.constRational q))
    (constString : ∀ s, motive (.constString s))
    (constSequence : ∀ T es, motive (.constSequence T es))
    (var : ∀ n, motive (.var n))
    (app : ∀ k ds, (∀ c ∈ ds, motive c) → motive (.app k ds)) (n : Node) : motive n :=
  @Node.rec motive (fun ds => ∀ c ∈ ds, motive c) constBoolean constInteger constRational
    constString (fun T es _ => constSequence T es) var app (by simp)
    (fun c ds hc hds => by simpa using ⟨hc, hds⟩) n

/-- The children, without the operator of a parameterized kind. -/
def children : Node → List Node
  | .app .applyUf ds => ds.tail
  | .app _ ds => ds
  | _ => []

def isConst : Node → Bool
  | .var _ | .app _ _ => false
  | _ => true

def rational? : Node → Option Rat
  | .constInteger z => some z
  | .constRational q => some q
  | _ => none

end Node

def getLength : Node → Option Nat
  | .constString s => some s.length
  | .constSequence _ es => some es.length
  | _ => none

def mkEmptyWord : Ty → Option Node
  | .seq .char => some (.constString [])
  | .seq T => some (.constSequence T [])
  | _ => none

/-! ## Types -/

/-- The result of a function of type `T` on `n` arguments. -/
def resultTy : Ty → Nat → Option Ty
  | T, 0 => some T
  | .fn _ B, n + 1 => resultTy B n
  | _, _ + 1 => none

/-- The type of a sum or product, which does not look at what is no integer. -/
def sumTy (Ts : List Ty) : Ty := if Ts.all (· = .int) then .int else .real

/-- The types that a kind gives without those of its children. -/
def preComputeType : Kind → Option Ty
  | .equal | .geq | .not => some .bool
  | .strLen | .strIndexof | .strStoi => some .int
  | .strItos | .strUnit => some (.seq .char)
  | _ => none

/-- `computeType`, for a node that is not checked. -/
def computeType (Γ : Nat → Ty) : Kind → List Ty → Option Ty
  | .add, Ts | .sub, Ts | .neg, Ts | .mult, Ts | .nonlinearMult, Ts => some (sumTy Ts)
  | .toReal, _ | .division, _ | .divisionTotal, _ => some .real
  | .strConcat, T :: Ts => if Ts.all (· = T) then some T else none
  | .strSubstr, T :: _ | .strReplace, T :: _ => some T
  | .seqUnit, T :: _ => some (.seq T)
  | .applyUf, T :: Ts => resultTy T Ts.length
  | .other f, Ts => resultTy (Γ f) Ts.length
  | _, _ => none

mutual

/-- `getType`. -/
def typeOf (Γ : Nat → Ty) : Node → Option Ty
  | .constBoolean _ => some .bool
  | .constInteger _ => some .int
  | .constRational _ => some .real
  | .constString _ => some (.seq .char)
  | .constSequence T _ => some (.seq T)
  | .var n => some (Γ n)
  | .app k ds =>
    match preComputeType k with
    | some T => some T
    | none => (typesOf Γ ds).bind (computeType Γ k)

/-- The types of the stored children. -/
def typesOf (Γ : Nat → Ty) : List Node → Option (List Ty)
  | [] => some []
  | c :: cs => (typeOf Γ c).bind fun T => (typesOf Γ cs).map (T :: ·)

end

/-! ## Values -/

section Shapes

variable {U : Nat → Type}

/-- A sum or product of integers or of reals. -/
def vArithFold (fi : Int → Int → Int) (fr : ℝ → ℝ → ℝ) : List (Val U) → Option (Val U)
  | [] => none
  | [v] => vArith1 id id [v]
  | v :: vs => (vArithFold fi fr vs).bind fun w => vArith2 fi fr [v, w]

/-- A concatenation. -/
def vSeqFold : List (Val U) → Option (Val U)
  | [] => none
  | [v] => vSeq1 (fun T l => .seq T l) [v]
  | v :: vs => (vSeqFold vs).bind fun w => vSeq2 [v, w]

/-- The elements of a constant sequence. -/
def collect (T : Ty) : List (Val U) → Option (List (Dom U T))
  | [] => some []
  | v :: vs => if h : v.1 = T then (collect T vs).map (h ▸ v.2 :: ·) else none

end Shapes

section Eval

variable {Γ : Nat → Ty} (I : Interp Γ)

/-- The meaning of a kind. -/
noncomputable def kindVal : Kind → List (Val I.U) → Option (Val I.U)
  | .equal => vEq
  | .geq => vRel (· ≥ ·) (· ≥ ·)
  | .not => vBool1 (!·)
  | .add => vArithFold (· + ·) (· + ·)
  | .sub => vArith2 (· - ·) (· - ·)
  | .neg => vArith1 (- ·) (- ·)
  | .mult | .nonlinearMult => vArithFold (· * ·) (· * ·)
  | .toReal => fun vs => match vs with
      | [⟨.int, z⟩] => some (.real (Int.cast z))
      | _ => none
  | .division => vArith2R (realDiv I)
  | .divisionTotal => vArith2R fun x y => x / y
  | .strLen => vSeq1 fun _ l => .int l.length
  | .strConcat => vSeqFold
  | .strSubstr => vSubstr
  | .strReplace => symVal I .strReplace
  | .strItos => vInt1 fun z => .str (strFromInt z)
  | .strIndexof => vIndexof
  | .strStoi => vStr1 fun s => .int (strToInt s)
  | .seqUnit => vAny1 fun T x => .seq T [x]
  | .strUnit => vInt1 fun z => .str [Fin.ofNat numCodes z.toNat]
  | .applyUf => fun vs => match vs with
      | f :: vs => vApply f vs
      | [] => none
  | .other f => vApply ⟨Γ f, I.const f⟩
where
  /-- A division of reals. -/
  vArith2R (f : ℝ → ℝ → ℝ) : List (Val I.U) → Option (Val I.U)
    | [⟨.real, x⟩, ⟨.real, y⟩] => some (.real (f x y))
    | _ => none

mutual

/-- The value of a node. -/
noncomputable def eval : Node → Option (Val I.U)
  | .constBoolean b => some (.bool b)
  | .constInteger z => some (.int z)
  | .constRational q => some (.real q)
  | .constString s => some (.str s)
  | .constSequence T es => ((evalList es).bind (collect T)).map (Val.seq T)
  | .var n => some ⟨Γ n, I.const n⟩
  | .app k ds => (evalList ds).bind (kindVal I k)

/-- The values of the stored children. -/
noncomputable def evalList : List Node → Option (List (Val I.U))
  | [] => some []
  | c :: cs => (eval c).bind fun v => (evalList cs).map (v :: ·)

end

end Eval

end EthosCpc.Cvc5.Entail
