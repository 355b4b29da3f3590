import Mathlib
import EthosCpc.Library.Inversion

/-!
# Terms with binders and datatypes

The rules for equality, quantifiers, datatypes and values work on terms
that `EthosCpc.Eunoia.Term` leaves out: variables, the builtin list,
binders over a list of variables, datatype constructors, selectors and
testers, tuples, sets and sequences.  This module is the language of
those rules.

As in the signature files, a binder is an ordinary symbol: `(forall xs F)`
is `app (app forall xs) F` with `xs` a term built from `@list`.  Nothing
in the syntax says that `xs` consists of variables.

Declared functions stand for every function symbol that the rules do not
mention by name, whether a user or a theory declares it.
-/

namespace EthosCpc.Hol

/-! ## Types -/

/-- Types.  `app` is the application of a sort constructor, as in the
instances of a parametric datatype. -/
inductive Ty
  | bool
  | int
  | real
  | char
  | bitvec (w : Nat)
  | seq (elem : Ty)
  | set (elem : Ty)
  | unitTuple
  | tuple (head tail : Ty)
  | sort (n : Nat)
  | app (con arg : Ty)
  | fn (dom cod : Ty)
  deriving DecidableEq, Repr

/-- `String` is `(Seq Char)`. -/
abbrev Ty.string : Ty := .seq .char

/-- The symbol at the head of a declared sort. -/
def Ty.symbol : Ty → Option Nat
  | .sort n => some n
  | .app F _ => F.symbol
  | _ => none

/-- `(eo::list_nth Tuple T n)`. -/
def Ty.tupleNth : Ty → Nat → Option Ty
  | .tuple A _, 0 => some A
  | .tuple _ B, n + 1 => B.tupleNth n
  | _, _ => none

/-! ## Terms -/

inductive Sym
  -- theories/Builtin.eo
  | ite | not | or | and | imp | eq | lambda | distinct
  -- the builtin list, `@list` in programs/Utils.eo
  | listNil | listCons
  -- theories/Quantifiers.eo
  | all | ex
  -- theories/Sets.eo
  | setEmpty (elem : Ty) | setSingleton | setUnion | setInter | setMinus | setInsert
  -- theories/Strings.eo
  | seqEmpty (elem : Ty) | seqUnit | seqConcat
  -- theories/Datatypes.eo
  | tupleUnit | tuple | tupleSelect | is
  deriving DecidableEq, Repr

/-- Terms.  A variable carries its type, so that variables of one name and
two types are two variables.  `consAs c D` is `(as c D)`, a constructor with
the annotation that an ambiguous one needs; it is a single node, which no
pattern of a program takes apart. -/
inductive Term
  | bool (b : Bool)
  | num (z : Int)
  | rat (q : Rat)
  | bin (w : Nat) (v : BitVec w)
  | str (s : List Nat)
  | var (x : Nat) (T : Ty)
  | const (n : Nat)
  | cons (c : Nat)
  | consAs (c : Nat) (D : Ty)
  | sel (c i : Nat)
  | sym (s : Sym)
  | app (f a : Term)
  deriving DecidableEq, Repr

abbrev Var : Type := Nat × Ty

namespace Term

abbrev bop (s : Sym) (a b : Term) : Term := .app (.app (.sym s) a) b

abbrev uop (s : Sym) (a : Term) : Term := .app (.sym s) a

abbrev ofVar (v : Var) : Term := .var v.1 v.2

/-- `(@list a l)`. -/
abbrev lcons (a l : Term) : Term := bop .listCons a l

/-- The elements of a term that is built from `@list`. -/
def toList : Term → Option (List Term)
  | .sym .listNil => some []
  | .app (.app (.sym .listCons) a) l => l.toList.map (a :: ·)
  | _ => none

def ofList : List Term → Term
  | [] => .sym .listNil
  | a :: l => lcons a (ofList l)

lemma eq_ofList {t : Term} {l : List Term} (h : t.toList = some l) : t = ofList l := by
  fun_induction toList t generalizing l with
  | case1 =>
    cases h
    rfl
  | case2 a t ih =>
    obtain ⟨l', hl', rfl⟩ := map_inv h
    rw [ih hl', ofList]
  | case3 => contradiction

def varList : Term → Option (List Var)
  | .sym .listNil => some []
  | .app (.app (.sym .listCons) (.var x T)) l => l.varList.map ((x, T) :: ·)
  | _ => none

end Term

/-- Symbols that bind the variables of their first argument. -/
def Sym.isBinder : Sym → Bool
  | .all | .ex | .lambda => true
  | _ => false

/-- A binder with its list of variables, which waits for a body. -/
def Term.binder? : Term → Option (Sym × Term)
  | .app (.sym q) xs => if q.isBinder then some (q, xs) else none
  | _ => none

lemma Term.binder?_eq_some {f : Term} {q : Sym} {xs : Term} (h : f.binder? = some (q, xs)) :
    f = .app (.sym q) xs ∧ q.isBinder = true := by
  unfold Term.binder? at h
  split at h
  swap
  · cases h
  split at h
  · cases h
    exact ⟨rfl, ‹_›⟩
  · cases h

/-! ## Signatures -/

/-- What a problem declares: constants and functions with their types, and
datatypes with their constructors. -/
structure Sig where
  /-- The type of a declared constant or function. -/
  const : Nat → Ty
  /-- The constructors of a declared datatype symbol. -/
  constructors : Nat → Option (List Nat)
  /-- The number of arguments of a constructor. -/
  arity : Nat → Nat
  /-- The constructors whose arguments do not determine their type. -/
  ambiguous : Nat → Bool
  /-- The argument types of a constructor at an instance of its datatype. -/
  fields : Nat → Ty → Option (List Ty)
  /-- The type of a constructor without annotation, from its arguments. -/
  result : Nat → List Ty → Option Ty
  length_fields : ∀ {c D Ts}, fields c D = some Ts → Ts.length = arity c
  mem_of_fields : ∀ {c D Ts}, fields c D = some Ts →
    ∃ n cs, D.symbol = some n ∧ constructors n = some cs ∧ c ∈ cs
  fields_of_result : ∀ {c Ts D}, result c Ts = some D → fields c D = some Ts
  result_of_fields : ∀ {c Ts D}, ambiguous c = false → fields c D = some Ts → result c Ts = some D
  result_ambiguous : ∀ {c Ts}, ambiguous c = true → result c Ts = none

/-- The constructors of an instance of a datatype.  A sort constructor that lacks arguments
is not the type of a term. -/
def Sig.dtConstructors (Γ : Sig) (D : Ty) : Option (List Nat) :=
  (D.symbol.bind Γ.constructors).filter fun cs => cs.all fun c => (Γ.fields c D).isSome

/-! ## Typing -/

/-- What an argument can be: a term of a type, or a list of terms. -/
inductive ArgTy
  | one (T : Ty)
  | many (Ts : List Ty)
  deriving DecidableEq, Repr

def ArgTy.isList : ArgTy → Bool
  | .one _ => false
  | .many _ => true

/-- What takes arguments. -/
inductive Head
  | sym (s : Sym)
  | con (c : Nat) (ann : Option Ty)
  | sel (c i : Nat)
  | tester (c : Nat)
  | testTuple
  | testUnit
  | tupleSel (n : Nat)
  deriving DecidableEq, Repr

/-- A term of a type, or a head that waits for arguments. -/
inductive Shape
  | arg (A : ArgTy)
  | part (h : Head) (As : List ArgTy)
  deriving DecidableEq, Repr

/-- The terms that a symbol, a constructor, a tester or an indexed selector is. -/
def Term.head? : Term → Option Head
  | .sym s => some (.sym s)
  | .cons c => some (.con c none)
  | .consAs c D => some (.con c (some D))
  | .sel c i => some (.sel c i)
  | .app (.sym .is) (.cons c) => some (.tester c)
  | .app (.sym .is) (.consAs c _) => some (.tester c)
  | .app (.sym .is) (.sym .tuple) => some .testTuple
  | .app (.sym .is) (.sym .tupleUnit) => some .testUnit
  | .app (.sym .tupleSelect) (.num n) => if 0 ≤ n then some (.tupleSel n.toNat) else none
  | _ => none

def Sym.arity : Sym → Nat
  | .listNil | .setEmpty _ | .seqEmpty _ | .tupleUnit => 0
  | .not | .distinct | .setSingleton | .seqUnit => 1
  | .or | .and | .imp | .eq | .listCons | .all | .ex | .lambda | .setUnion | .setInter | .setMinus
  | .setInsert | .seqConcat | .tuple | .tupleSelect | .is => 2
  | .ite => 3

/-- Whether a head takes an argument that is a list, or one that is not.  The binders, `is` and
`tuple.select` take theirs as part of the syntax. -/
def Head.accepts : Head → Bool → Bool
  | .sym s, true => s = .listCons || s = .eq || s = .distinct || s = .setInsert
  | .sym s, false => !s.isBinder && s ≠ .is && s ≠ .tupleSelect
  | _, isList => !isList

/-- The types of arguments that are no lists. -/
def ones : List ArgTy → Option (List Ty)
  | [] => some []
  | .one T :: As => (ones As).map (T :: ·)
  | .many _ :: _ => none

section Typing

variable (Γ : Sig)

def Head.arity : Head → Nat
  | .sym s => s.arity
  | .con c _ => Γ.arity c
  | _ => 1

/-- The type of a head applied to all its arguments. -/
def headTy : Head → List ArgTy → Option ArgTy
  | .sym .ite, [.one .bool, .one T, .one T'] => if T' = T then some (.one T) else none
  | .sym .not, [.one .bool] => some (.one .bool)
  | .sym .or, [.one .bool, .one .bool] => some (.one .bool)
  | .sym .and, [.one .bool, .one .bool] => some (.one .bool)
  | .sym .imp, [.one .bool, .one .bool] => some (.one .bool)
  | .sym .eq, [A, A'] => if A' = A then some (.one .bool) else none
  | .sym .distinct, [.many (T :: Ts)] => if ∀ T' ∈ Ts, T' = T then some (.one .bool) else none
  | .sym .listNil, [] => some (.many [])
  | .sym .listCons, [.one T, .many Ts] => some (.many (T :: Ts))
  | .sym (.setEmpty T), [] => some (.one (.set T))
  | .sym .setSingleton, [.one T] => some (.one (.set T))
  | .sym .setUnion, [.one (.set T), .one (.set T')] =>
    if T' = T then some (.one (.set T)) else none
  | .sym .setInter, [.one (.set T), .one (.set T')] =>
    if T' = T then some (.one (.set T)) else none
  | .sym .setMinus, [.one (.set T), .one (.set T')] =>
    if T' = T then some (.one (.set T)) else none
  | .sym .setInsert, [.many Ts, .one (.set T)] =>
    if ∀ T' ∈ Ts, T' = T then some (.one (.set T)) else none
  | .sym (.seqEmpty T), [] => some (.one (.seq T))
  | .sym .seqUnit, [.one T] => some (.one (.seq T))
  | .sym .seqConcat, [.one (.seq T), .one (.seq T')] =>
    if T' = T then some (.one (.seq T)) else none
  | .sym .tupleUnit, [] => some (.one .unitTuple)
  | .sym .tuple, [.one A, .one B] => some (.one (.tuple A B))
  | .con c none, As => ((ones As).bind (Γ.result c)).map .one
  | .con c (some D), As =>
    if Γ.ambiguous c = true ∧ ones As = Γ.fields c D ∧ (Γ.fields c D).isSome then some (.one D)
    else none
  | .sel c i, [.one D] => ((Γ.fields c D).bind fun Ts => Ts[i]?).map .one
  | .tester _, [.one _] => some (.one .bool)
  | .testTuple, [.one _] => some (.one .bool)
  | .testUnit, [.one _] => some (.one .bool)
  | .tupleSel n, [.one D] => (D.tupleNth n).map .one
  | _, _ => none

/-- Close a head once it has all its arguments. -/
def completeTy (h : Head) (As : List ArgTy) : Option Shape :=
  if As.length = h.arity Γ then (headTy Γ h As).map .arg else some (.part h As)

/-- One more argument. -/
def applyTy : Shape → Shape → Option Shape
  | .part h As, .arg A => if h.accepts A.isList then completeTy Γ h (As ++ [A]) else none
  | .arg (.one (.fn A B)), .arg (.one T) => if T = A then some (.arg (.one B)) else none
  | _, _ => none

/-- The type of a function of several arguments. -/
def fnTy : List Var → Ty → Ty
  | [], B => B
  | v :: vs, B => .fn v.2 (fnTy vs B)

/-- The type of a binder over `vs`, from the type of its body. -/
def binderTy : Sym → List Var → Shape → Option Shape
  | .all, _, .arg (.one .bool) => some (.arg (.one .bool))
  | .ex, _, .arg (.one .bool) => some (.arg (.one .bool))
  | .lambda, vs, .arg (.one B) => some (.arg (.one (fnTy vs B)))
  | _, _, _ => none

/-- The type of a term.  A binder is well-typed over a list of variables only. -/
def typeof : Term → Option Shape
  | .bool _ => some (.arg (.one .bool))
  | .num _ => some (.arg (.one .int))
  | .rat _ => some (.arg (.one .real))
  | .bin w _ => some (.arg (.one (.bitvec w)))
  | .str _ => some (.arg (.one .string))
  | .var _ T => some (.arg (.one T))
  | .const n => some (.arg (.one (Γ.const n)))
  | .cons c => completeTy Γ (.con c none) []
  | .consAs c D => completeTy Γ (.con c (some D)) []
  | .sel c i => completeTy Γ (.sel c i) []
  | .sym s => completeTy Γ (.sym s) []
  | .app f a =>
    match (Term.app f a).head? with
    | some h => completeTy Γ h []
    | none =>
      match f.binder? with
      | some (q, xs) => xs.varList.bind fun vs => (typeof a).bind (binderTy q vs)
      | none => (typeof f).bind fun F => (typeof a).bind (applyTy Γ F)

/-- A term of type `T`. -/
abbrev HasTy (t : Term) (T : Ty) : Prop := typeof Γ t = some (.arg (.one T))

end Typing

end EthosCpc.Hol
