import EthosCpc.Eunoia.ListOps

/-!
# Rewrite rules with list variables

A rule of the rewrite database has list variables, which stand for any number of arguments of an
n-ary operator.  cvc5 instantiates a rule with `narySubstitute`, which splices the lists and
collapses applications that are left with fewer than two arguments.  For Ethos `printDslRule`
prints a rule whose arguments are terms; a list is one term, a list of the operator with its nil
terminator.  Where an application may collapse, `EoListNodeConverter` puts the operator
`eo::list_singleton_elim`.

The types of a rule are concrete, so an n-ary operator has one nil terminator, and the operators
that are evaluated at a type (`@type_of` and the empty set and sequence) do not occur.  Other
operators are the terms that they are printed as.
-/

namespace EthosCpc.Cvc5.Rare

/-- The n-ary kinds that have a null terminator, at concrete types: the operators that they are
printed as, and the nil terminators of these. -/
structure NaryTable (κ : Type) where
  op : κ → Term
  nil : κ → Term
  nil_view : ∀ k, naryView (op k) (nil k) = ([], nil k)

/-- The kinds of the core theories; arithmetic kinds are those of integers or reals. -/
inductive Kind
  | or
  | and
  | add (isReal : Bool)
  | mult (isReal : Bool)
  | nonlinearMult (isReal : Bool)
  | stringConcat (elem : Ty)
  | regexpConcat
  | regexpUnion
  | regexpInter
  | bitvectorAnd (w : Nat)
  | bitvectorOr (w : Nat)
  | bitvectorAdd (w : Nat)
  | bitvectorXor (w : Nat)
  | bitvectorMult (w : Nat)
  | bitvectorConcat
deriving DecidableEq

def Kind.op : Kind → Term
  | .or => .sym .or
  | .and => .sym .and
  | .add _ => .sym .plus
  | .mult _ => .sym .times
  | .nonlinearMult _ => .sym .times
  | .stringConcat _ => .sym .strConcat
  | .regexpConcat => .sym .reConcat
  | .regexpUnion => .sym .reUnion
  | .regexpInter => .sym .reInter
  | .bitvectorAnd _ => .sym .bvand
  | .bitvectorOr _ => .sym .bvor
  | .bitvectorAdd _ => .sym .bvadd
  | .bitvectorXor _ => .sym .bvxor
  | .bitvectorMult _ => .sym .bvmul
  | .bitvectorConcat => .sym .concat

/-- The terms that `getNullTerminator` returns; they are printed as the nil terminators that the
signature declares. -/
def Kind.nil : Kind → Term
  | .or => .bool false
  | .and => .bool true
  | .add isReal => if isReal then .rat 0 else .num 0
  | .mult isReal => if isReal then .rat 1 else .num 1
  | .nonlinearMult isReal => if isReal then .rat 1 else .num 1
  | .stringConcat .char => .str []
  | .stringConcat elem => .sym (.seqEmpty elem)
  | .regexpConcat => .uop .strToRe (.str [])
  | .regexpUnion => .sym .reNone
  | .regexpInter => .sym .reAll
  | .bitvectorAnd w => .bin w (BitVec.allOnes w)
  | .bitvectorOr w => .bin w 0
  | .bitvectorAdd w => .bin w 0
  | .bitvectorXor w => .bin w 0
  | .bitvectorMult w => .bin w (BitVec.ofNat w 1)
  | .bitvectorConcat => .bin 0 0

def coreTable : NaryTable Kind where
  op := Kind.op
  nil := Kind.nil
  nil_view k := by
    cases k with
    | add isReal => cases isReal <;> rfl
    | mult isReal => cases isReal <;> rfl
    | nonlinearMult isReal => cases isReal <;> rfl
    | stringConcat elem => cases elem <;> rfl
    | _ => rfl

variable {κ : Type} [DecidableEq κ] (K : NaryTable κ)

/-- A term of cvc5 without variables of the rule. -/
inductive Node (κ : Type)
  | const (t : Term)
  | app (f : Term) (args : List (Node κ))
  | nary (k : κ) (args : List (Node κ))

inductive Var
  | term (v : Nat)
  | list (v : Nat)
deriving DecidableEq

inductive Pattern (κ : Type)
  | var (x : Var)
  | const (t : Term)
  | app (f : Term) (args : List (Pattern κ))
  | nary (k : κ) (args : List (Pattern κ))

def Pattern.listVar? : Pattern κ → Option Nat
  | .var (.list v) => some v
  | _ => none

def Pattern.isListVar (p : Pattern κ) : Bool := p.listVar?.isSome

/-! ## Contexts of list variables -/

abbrev Context (κ : Type) := Nat → Option κ

/-- An occurrence below a kind, `none` if that kind is not n-ary. -/
def addContext (k : Option κ) (v : Nat) (ctx : Context κ) : Option (Context κ) :=
  match ctx v with
  | none => k.map fun k => Function.update ctx v (some k)
  | some k' => if some k' = k then some ctx else none

mutual

/-- The contexts, `none` where the result of the source is false. -/
def getListVarContext : Pattern κ → Context κ → Option (Context κ)
  | .var (.term _), ctx => some ctx
  | .var (.list _), _ => none
  | .const _, ctx => some ctx
  | .app _ args, ctx => getListVarContexts none args ctx
  | .nary k args, ctx => getListVarContexts (some k) args ctx

def getListVarContexts (k : Option κ) : List (Pattern κ) → Context κ → Option (Context κ)
  | [], ctx => some ctx
  | p :: ps, ctx =>
    (match p.listVar? with
      | some v => addContext k v ctx
      | none => getListVarContext p ctx).bind (getListVarContexts k ps)

end

/-! ## Substitution -/

/-- The terms for the variables; a list is given as the children of an `SEXPR`. -/
structure Subst (κ : Type) where
  term : Nat → Node κ
  list : Nat → List (Node κ)

def getNullTerminator (k : κ) : Node κ := .const (K.nil k)

/-- The application to new children, of a term that had `n` of them. -/
def rebuild (null : Option (Node κ)) (mk : List (Node κ) → Node κ) (n : Nat)
    (children : List (Node κ)) : Option (Node κ) :=
  if children.length = n then some (mk children)
  else
    match children with
    | [] => null
    | [c] => some c
    | children => some (mk children)

mutual

def narySubstitute (σ : Subst κ) : Pattern κ → Option (Node κ)
  | .var (.term v) => some (σ.term v)
  | .var (.list _) => none
  | .const t => some (.const t)
  | .app f args => (substituteArgs σ args).bind (rebuild none (.app f) args.length)
  | .nary k args =>
    (substituteArgs σ args).bind (rebuild (some (getNullTerminator K k)) (.nary k) args.length)

/-- The children, with the children of the lists for list variables. -/
def substituteArgs (σ : Subst κ) : List (Pattern κ) → Option (List (Node κ))
  | [] => some []
  | p :: ps =>
    (match p.listVar? with
      | some v => some (σ.list v)
      | none => (narySubstitute σ p).map ([·])).bind fun children =>
        (substituteArgs σ ps).map (children ++ ·)

end

/-! ## Translation to Ethos -/

mutual

/-- A term as Ethos reads it, where an n-ary operator makes a list. -/
def convert : Node κ → Term
  | .const t => t
  | .app f args => (convertList args).foldl .app f
  | .nary k args => prependNAryChildren (K.op k) (K.nil k) (convertList args)

def convertList : List (Node κ) → List Term
  | [] => []
  | n :: ns => convert n :: convertList ns

end

/-- What Ethos reads in a rule. -/
inductive Expr (κ : Type)
  | param (x : Var)
  | const (t : Term)
  | app (f a : Expr κ)
  | listConcat (k : κ) (a b : Expr κ)
  | listSingletonElim (k : κ) (a : Expr κ)

/-- `State::mkApplyAttr` for an operator with a nil terminator; the parameters that are marked as
lists come with `true`. -/
def mkApplyAttr (k : κ) : List (Bool × Expr κ) → Expr κ
  | [] => .const (K.nil k)
  | (isList, c) :: cs =>
    if isList then
      if cs.isEmpty then c else .listConcat k c (mkApplyAttr k cs)
    else .app (.app (.const (K.op k)) c) (mkApplyAttr k cs)

/-- How many arguments are not list variables. -/
def nlistChildren (args : List (Pattern κ)) : Nat := args.countP (!·.isListVar)

mutual

/-- A term of a rule as it is printed, with `EoListNodeConverter`, and read. -/
def read (useSingletonElim : Bool) : Pattern κ → Expr κ
  | .var x => .param x
  | .const t => .const t
  | .app f args => (readArgs useSingletonElim args).foldl (fun e c => .app e c.2) (.const f)
  | .nary k args =>
    let e := mkApplyAttr K k (readArgs useSingletonElim args)
    if useSingletonElim && nlistChildren args < 2 then .listSingletonElim k e else e

def readArgs (useSingletonElim : Bool) : List (Pattern κ) → List (Bool × Expr κ)
  | [] => []
  | p :: ps => (p.isListVar, read useSingletonElim p) :: readArgs useSingletonElim ps

end

/-! ## Rules of Ethos -/

namespace Expr

def isEvaluatable : Expr κ → Bool
  | .param _ => false
  | .const _ => false
  | .app f a => f.isEvaluatable || a.isEvaluatable
  | .listConcat .. => true
  | .listSingletonElim .. => true

def getVariables : Expr κ → List Var
  | .param x => [x]
  | .const _ => []
  | .app f a => f.getVariables ++ a.getVariables
  | .listConcat _ a b => a.getVariables ++ b.getVariables
  | .listSingletonElim _ a => a.getVariables

end Expr

/-- `TypeChecker::match`. -/
def tryMatch : Expr κ → Term → (Var → Option Term) → Option (Var → Option Term)
  | .param x, t, ctx =>
    match ctx x with
    | none => some (Function.update ctx x (some t))
    | some t' => if t' = t then some ctx else none
  | .const c, t, ctx => if c = t then some ctx else none
  | .app f a, .app g b, ctx => (tryMatch f g ctx).bind (tryMatch a b)
  | _, _, _ => none

def tryMatchList : List (Expr κ) → List Term → (Var → Option Term) → Option (Var → Option Term)
  | [], [], ctx => some ctx
  | e :: es, t :: ts, ctx => (tryMatch e t ctx).bind (tryMatchList es ts)
  | _, _, _ => none

def eval (ctx : Var → Option Term) : Expr κ → Option Term
  | .param x => ctx x
  | .const t => some t
  | .app f a => (eval ctx f).bind fun f => (eval ctx a).map (.app f)
  | .listConcat k a b =>
    (eval ctx a).bind fun a => (eval ctx b).bind (eoListConcat (K.op k) (K.nil k) a)
  | .listSingletonElim k a => (eval ctx a).bind (eoListSingletonElim (K.op k) (K.nil k))

structure EoRule (κ : Type) where
  args : List (Expr κ)
  premises : List (Expr κ)
  conclusion : Expr κ

namespace EoRule

/-- What Ethos checks when a rule is declared (`typeCheckProgramPair`).  A rule without arguments
and premises must have an evaluated conclusion. -/
def accepted (r : EoRule κ) : Bool :=
  if (r.args ++ r.premises).isEmpty then
    r.conclusion.getVariables.isEmpty && !r.conclusion.isEvaluatable
  else
    (r.args ++ r.premises).all (!·.isEvaluatable) && r.conclusion.getVariables.all fun x =>
        ((r.args ++ r.premises).flatMap (·.getVariables)).contains x

/-- The conclusion of a step. -/
def apply (r : EoRule κ) (args premises : List Term) : Option Term :=
  if r.accepted then
    (tryMatchList (r.args ++ r.premises) (args ++ premises) fun _ => none).bind fun ctx =>
      eval K ctx r.conclusion
  else none

end EoRule

/-! ## Rules of the database -/

/-- A rule `cond₁, …, condₙ ⊢ lhs = rhs` with its variables. -/
structure Rule (κ : Type) where
  fvs : List Var
  cond : List (Pattern κ)
  lhs : Pattern κ
  rhs : Pattern κ

namespace Rule

def conc (r : Rule κ) : Pattern κ := .app (.sym .eq) [r.lhs, r.rhs]

/-- The contexts that `init` computes, `none` if it rejects the rule for them. -/
def listVarCtx (r : Rule κ) : Option (Context κ) :=
  (r.cond ++ [r.conc]).foldlM (fun ctx p => getListVarContext p ctx) fun _ => none

/-- The witness term for a variable, an assertion failure for a list variable that does not
occur. -/
def witnessTerm (ctx : Context κ) (σ : Subst κ) : Var → Option Term
  | .term v => some (convert K (σ.term v))
  | .list v =>
    (ctx v).map fun k =>
      if (σ.list v).isEmpty then convert K (getNullTerminator K k)
      else prependNAryChildren (K.op k) (K.nil k) (convertList K (σ.list v))

def getArgsFromProofRule (r : Rule κ) (ctx : Context κ) (σ : Subst κ) : Option (List Term) :=
  r.fvs.mapM (witnessTerm K ctx σ)

def printDslRule (r : Rule κ) : EoRule κ where
  args := r.fvs.map .param
  premises := r.cond.map (read K true)
  conclusion := .app (.app (.const (.sym .eq)) (read K false r.lhs)) (read K true r.rhs)

end Rule

/-! ## Shapes of patterns -/

namespace Pattern

mutual

def getVariables : Pattern κ → List Var
  | .var x => [x]
  | .const _ => []
  | .app _ args => getVariablesList args
  | .nary _ args => getVariablesList args

def getVariablesList : List (Pattern κ) → List Var
  | [] => []
  | p :: ps => p.getVariables ++ getVariablesList ps

end

mutual

/-- An n-ary application is made of at least two arguments. -/
def WellFormed : Pattern κ → Prop
  | .var _ => True
  | .const _ => True
  | .app _ args => WellFormedList args
  | .nary _ args => 2 ≤ args.length ∧ WellFormedList args

def WellFormedList : List (Pattern κ) → Prop
  | [] => True
  | p :: ps => p.WellFormed ∧ WellFormedList ps

end

/-- How many operands are left of the arguments. -/
def operands (σ : Subst κ) (args : List (Pattern κ)) : Nat :=
  (args.map fun p =>
    match p.listVar? with
    | some v => (σ.list v).length
    | none => 1).sum

mutual

def Keeps (σ : Subst κ) : Pattern κ → Prop
  | .var _ => True
  | .const _ => True
  | .app _ args => KeepsList σ args
  | .nary _ args => 2 ≤ operands σ args ∧ KeepsList σ args

def KeepsList (σ : Subst κ) : List (Pattern κ) → Prop
  | [] => True
  | p :: ps => p.Keeps σ ∧ KeepsList σ ps

end

mutual

/-- Every n-ary application has two arguments that are not list variables, and a list variable as
its last argument only. -/
def plain : Pattern κ → Bool
  | .var _ => true
  | .const _ => true
  | .app _ args => plainList args
  | .nary _ args =>
    decide (2 ≤ nlistChildren args) && args.dropLast.all (!·.isListVar) && plainList args

def plainList : List (Pattern κ) → Bool
  | [] => true
  | p :: ps => p.plain && plainList ps

end

end Pattern

/-- What the construction of a rule gives: terms have the arity of their kinds, and the variables
are declared. -/
structure Rule.WellFormed (r : Rule κ) : Prop where
  wellFormed : ∀ p ∈ r.cond ++ [r.lhs, r.rhs], p.WellFormed
  declared : ∀ p ∈ r.cond ++ [r.lhs, r.rhs], ∀ x ∈ p.getVariables, x ∈ r.fvs

end EthosCpc.Cvc5.Rare
