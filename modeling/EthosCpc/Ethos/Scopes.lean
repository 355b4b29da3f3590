import EthosCpc.Ethos.Kind
import Mathlib.Data.Finset.Basic

/-!
# Scopes, bindings and overloads

The symbol tables of `State` with the operations that change them, and how
`State::mkExpr` chooses among the symbols that are declared under one name.

Terms are the elements of a type `E`: hash-consing makes equality of pointers
equality of terms.  The vectors `d_decls`, `d_overloadedDecls`,
`d_declsSizeCtx` and the overloads of a name are only used at their back, so
they are lists here whose head is the back of the vector.  Assertions are not
compiled into the checker's default build and have no effect.

The type checker and the part of term building that reads none of the tables
are the fields of `Builder`.
-/

namespace EthosCpc

variable {E A : Type} [DecidableEq E]

/-- `AppInfo`.  The constructor attribute with its term is `none` for
`Attr::NONE`. -/
structure AppInfo (A : Type) where
  kind : Kind := .none
  attrCons : Option A := none
  isOverloaded : Bool := false
  overloadName : String := ""

/-- The tables of `State` that scopes and overloading use. -/
structure Scopes (E A : Type) where
  symTable : String → Option E
  overloads : String → List E
  overloadedDecls : List String
  decls : List String
  declsSizeCtx : List Nat
  appData : E → Option (AppInfo A)
  ruleSymTable : String → Option E

/-- The option `d_ruleSymTable`, and which terms are proof rules. -/
structure BindOptions (E : Type) where
  useRuleSymTable : Bool
  isProofRule : E → Bool

namespace Scopes

def empty : Scopes E A :=
  ⟨fun _ => none, fun _ => [], [], [], [], fun _ => none, fun _ => none⟩

/-! ## Operations on the tables -/

/-- `d_appData[e]`, which adds an entry if there is none. -/
def info (s : Scopes E A) (e : E) : AppInfo A := (s.appData e).getD {}

/-- Record that `e` is an overload of `name`, whose binding so far is `prev`. -/
def addOverload (s : Scopes E A) (name : String) (prev e : E) : Scopes E A :=
  let ov := if s.overloads name = [] then [prev] else s.overloads name
  { s with
    appData := Function.update s.appData e
      (some { s.info e with isOverloaded := true, overloadName := name })
    overloads := Function.update s.overloads name (e :: ov)
    overloadedDecls :=
      if s.declsSizeCtx = [] then s.overloadedDecls else name :: s.overloadedDecls }

/-- `State::bind` with the main symbol table. -/
def bindMain (s : Scopes E A) (name : String) (e : E) : Scopes E A :=
  let s' := match s.symTable name with
    | some prev => s.addOverload name prev e
    | none => s
  { s' with
    symTable := Function.update s'.symTable name (some e)
    decls := if s'.declsSizeCtx = [] then s'.decls else name :: s'.decls }

def bind (o : BindOptions E) (s : Scopes E A) (name : String) (e : E) : Scopes E A :=
  if o.useRuleSymTable && o.isProofRule e then
    match s.ruleSymTable name with
    | some _ => s
    | none => { s with ruleSymTable := Function.update s.ruleSymTable name (some e) }
  else s.bindMain name e

def pushScope (s : Scopes E A) : Scopes E A :=
  { s with declsSizeCtx := s.decls.length :: s.declsSizeCtx }

/-- One turn of the loop of `State::popScope`, for the declaration `name`. -/
def unbind (s : Scopes E A) (name : String) : Scopes E A :=
  if s.overloadedDecls.head? = some name then
    let ov := (s.overloads name).tail
    { s with
      overloadedDecls := s.overloadedDecls.tail
      symTable := Function.update s.symTable name ov.head?
      overloads := Function.update s.overloads name (if ov.length = 1 then [] else ov) }
  else { s with symTable := Function.update s.symTable name none }

/-- `State::popScope`, which is fatal outside of all scopes. -/
def popScope (s : Scopes E A) : Option (Scopes E A) :=
  match s.declsSizeCtx with
  | [] => none
  | lastSize :: ctx =>
    let n := s.decls.length - lastSize
    let s' := (s.decls.take n).foldl unbind s
    some { s' with decls := s.decls.drop n, declsSizeCtx := ctx }

/-- `State::reset`, which keeps the overloads. -/
def reset (s : Scopes E A) : Scopes E A :=
  { s with symTable := fun _ => none, decls := [], declsSizeCtx := [] }

/-- Association of a kind and a constructor attribute with a symbol, as
`bindBuiltin` and `markConstructorKind` do. -/
def setInfo (s : Scopes E A) (e : E) (k : Kind) (attr : Option A) : Scopes E A :=
  { s with
    appData := Function.update s.appData e (some { s.info e with kind := k, attrCons := attr }) }

/-! ## Reachable states -/

inductive Reachable (o : BindOptions E) : Scopes E A → Prop
  | init : Reachable o empty
  | bind {s} (name : String) (e : E) : Reachable o s → Reachable o (s.bind o name e)
  | pushScope {s} : Reachable o s → Reachable o s.pushScope
  | popScope {s s'} : Reachable o s → s.popScope = some s' → Reachable o s'
  | reset {s} : Reachable o s → Reachable o s.reset
  | setInfo {s} (e : E) (k : Kind) (attr : Option A) : Reachable o s →
      Reachable o (s.setInfo e k attr)

/-! ## Building applications -/

def getVar (s : Scopes E A) (name : String) : Option E := s.symTable name

end Scopes

/-- What `State::mkApplyAttr` makes of an application: nothing, a term, or an
application of the operator's constructor term, possibly as the only argument
of the operator. -/
inductive ApplyAttr (E : Type)
  | null
  | term (x : E)
  | chain (cons : E) (args : List E)
  | argList (cons : E) (args : List E)

/-- The type checker, and the construction of terms from given parts. -/
structure Builder (E A : Type) where
  /-- `mkApplyInternal` and `mkExprInternal`. -/
  apply : E → List E → E
  /-- Does `getType` succeed? -/
  wellTyped : E → Bool
  /-- Symbols of the argument types of a function type. -/
  dummyArgs : E → List E
  /-- Is the type of a term the return type of a function type? -/
  hasReturnType : E → E → Bool
  /-- `computeConstructorTermInternal` and `mkApplyAttr`. -/
  applyAttr : A → E → List E → ApplyAttr E
  /-- Reduction of a lambda, evaluation of a program, or a curried
  application. -/
  applyPlain : E → List E → E
  /-- `mkExpr` for the other kinds. -/
  mkOther : Kind → List E → E

namespace Scopes

variable (tc : Builder E A) (s : Scopes E A)

/-- An application by the constructor attribute of its head, or else the term
`plain`. -/
def attrApp (mk : E → List E → Option E) (hd : E) (args : List E) (plain : E) : Option E :=
  match (s.info hd).attrCons with
  | none => some plain
  | some a =>
    match tc.applyAttr a hd args with
    | .null => some plain
    | .term x => some x
    | .chain c cs => mk c cs
    | .argList c cs => (mk c cs).map fun l => tc.apply hd [l]

/-- `State::getOverloadInternal`: the first overload from the back whose
application is accepted, either the application or the overload itself.
Running out of fuel is `none`, and `some none` is the null term. -/
def getOverloadInternal (mk : E → List E → Option E) (args : List E) (ok : E → Bool)
    (retApply : Bool) : List E → Option (Option E)
  | [] => some none
  | hd :: ov =>
    (s.attrApp tc mk hd args (tc.apply hd args)).bind fun x =>
      if ok x then some (some (if retApply then x else hd))
      else getOverloadInternal mk args ok retApply ov

/-- The overloads that are consulted for the symbol `e`. -/
def overloadsOf (e : E) : List E :=
  if (s.info e).isOverloaded then s.overloads (s.info e).overloadName else []

/-- `State::mkExpr` for `Kind::AS`: the first overload of the symbol that has
the given function type. -/
def mkAs (mk : E → List E → Option E) (f T : E) : Option E :=
  let ov := if (s.info f).isOverloaded then s.overloads (s.info f).overloadName else [f]
  (s.getOverloadInternal tc mk (tc.dummyArgs T) (fun x => tc.hasReturnType x T) false ov).map
    fun g => g.getD (tc.mkOther .as [f, T])

/-- `State::mkExpr` for the kinds that builtin operators stand for. -/
def mkBuiltin (mk : E → List E → Option E) (k : Kind) (args : List E) : Option E :=
  match k, args with
  | .as, [f, T] => s.mkAs tc mk f T
  | k, args => some (tc.mkOther k args)

/-- `State::mkExpr` for an application.  The source notes that it could loop,
hence the fuel. -/
def mkApply : Nat → E → List E → Option E
  | 0, _, _ => none
  | fuel + 1, hd, args =>
    if (s.info hd).kind ≠ .none then s.mkBuiltin tc (mkApply fuel) (s.info hd).kind args
    else
      (s.getOverloadInternal tc (mkApply fuel) args tc.wellTyped true (s.overloadsOf hd)).bind
        fun x =>
          match x with
          | some x => some x
          | none => s.attrApp tc (mkApply fuel) hd args (tc.applyPlain hd args)

def mkExpr (fuel : Nat) (k : Kind) (children : List E) : Option E :=
  match k, children with
  | .apply, hd :: args => s.mkApply tc fuel hd args
  | k, children => s.mkBuiltin tc (s.mkApply tc fuel) k children

/-! ## Blocks and later calls -/

/-- `bind` for a list of bindings. -/
def bindAll (o : BindOptions E) (s : Scopes E A) (binds : List (String × E)) : Scopes E A :=
  binds.foldl (fun s b => s.bind o b.1 b.2) s

end Scopes

/-- A scope that is opened, used for bindings and closed again, with the terms
that are created inside. -/
structure Block (E : Type) where
  binds : List (String × E)
  locals : Finset E

/-- The state after a block. -/
def Block.run (o : BindOptions E) (b : Block E) (s : Scopes E A) : Option (Scopes E A) :=
  (Scopes.bindAll o s.pushScope b.binds).popScope

/-- The terms created in a block are new. -/
def Block.Fresh (b : Block E) (s : Scopes E A) : Prop :=
  ∀ e ∈ b.locals, ∀ name, s.symTable name ≠ some e ∧ e ∉ s.overloads name

/-- A call after a block. -/
inductive Later (E : Type)
  | getVar (name : String)
  | bind (name : String) (e : E)
  | mkExpr (fuel : Nat) (k : Kind) (children : List E)

/-- The terms of a call exist outside of the block. -/
def Later.Outside (L : Finset E) : Later E → Prop
  | .getVar _ => True
  | .bind _ e => e ∉ L
  | .mkExpr _ _ cs => ∀ c ∈ cs, c ∉ L

/-- Term building leads from terms outside of the block to such terms. -/
structure Builder.Outside (tc : Builder E A) (L : Finset E) : Prop where
  chain : ∀ {a hd args c cs}, hd ∉ L → (∀ x ∈ args, x ∉ L) →
    tc.applyAttr a hd args = .chain c cs → c ∉ L ∧ ∀ x ∈ cs, x ∉ L
  argList : ∀ {a hd args c cs}, hd ∉ L → (∀ x ∈ args, x ∉ L) →
    tc.applyAttr a hd args = .argList c cs → c ∉ L ∧ ∀ x ∈ cs, x ∉ L
  dummyArgs : ∀ {T}, T ∉ L → ∀ x ∈ tc.dummyArgs T, x ∉ L

/-- The results of the later calls. -/
def Scopes.observe (tc : Builder E A) (o : BindOptions E) : Scopes E A → List (Later E) →
    List (Option E)
  | _, [] => []
  | s, .getVar name :: l => s.getVar name :: observe tc o s l
  | s, .bind name e :: l => observe tc o (s.bind o name e) l
  | s, .mkExpr fuel k cs :: l => s.mkExpr tc fuel k cs :: observe tc o s l

/-- Later calls do not see whether the block was there, whatever types the
terms have. -/
def Block.Transparent (o : BindOptions E) (b : Block E) (s : Scopes E A) : Prop :=
  ∃ s', b.run o s = some s' ∧ ∀ tc : Builder E A, tc.Outside b.locals → ∀ later : List (Later E),
      (∀ l ∈ later, l.Outside b.locals) → s'.observe tc o later = s.observe tc o later

end EthosCpc
