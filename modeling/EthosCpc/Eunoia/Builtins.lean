import EthosCpc.Eunoia.Typing
import EthosCpc.Eunoia.ListOps

/-!
# Builtin operators on literals, and nil terminators

The builtin operators of Eunoia that compute with literals, after
`Literal::evaluate`, and the nil terminators that the signature declares
for its `:right-assoc-nil` operators.  An operator whose arguments are not
of the kinds it handles is stuck, `none`.

A nil terminator may depend on the type of the list.  `TypeChecker` then
computes it from the type of the first argument of the list operator, and
`nilFor` does the same with `typeof`.
-/

namespace EthosCpc

open Term (bop uop)

/-! ## Control -/

/-- `eo::ite`, which chooses a branch only for a Boolean literal. -/
def eoIte {α : Type*} (c : Term) (t e : α) : Option α :=
  match c with
  | .bool true => some t
  | .bool false => some e
  | _ => none

/-- `eo::requires`, with the comparison already made. -/
def eoRequires {α : Type*} (c : Bool) (r : Option α) : Option α := if c then r else none

lemma eoRequires_eq_some {α : Type*} {c : Bool} {r : Option α} {x : α} :
    eoRequires c r = some x ↔ c = true ∧ r = some x := by
  cases c <;> simp [eoRequires]

/-! ## Conversions of literals -/

/-- `eo::to_z`: rationals are rounded down, a string of length one gives its
code point. -/
def eoToZ : Term → Option Int
  | .num z => some z
  | .rat q => some ⌊q⌋
  | .bin _ v => some v.toNat
  | .str [c] => some c.val
  | _ => none

def eoToQ : Term → Option Rat
  | .num z => some z
  | .rat q => some q
  | _ => none

/-- The number of widths that `eo::to_bin` accepts: a width is an `uint32_t`. -/
def maxWidth : Nat := 2 ^ 32

/-- `eo::to_bin`: the width must fit an `uint32_t`, the value is reduced. -/
def eoToBin (w : Int) (n : Int) : Option Term :=
  if 0 ≤ w ∧ w < maxWidth then some (.bin w.toNat (BitVec.ofInt w.toNat n)) else none

/-- `eo::not`: negation of a Boolean, complement of a binary. -/
def eoNot : Term → Option Term
  | .bool b => some (.bool (!b))
  | .bin w v => some (.bin w (~~~ v))
  | _ => none

/-! ## Nil terminators -/

def seqEmpty : Ty → Option Term
  | .seq .char => some (.str [])
  | .seq T => some (.sym (.seqEmpty T))
  | _ => none

def Ty.width : Ty → Option Nat
  | .bitvec w => some w
  | _ => none

/-- The declared nil terminator of an operator for lists of type `T`. -/
def eoNil (s : Sym) (T : Ty) : Option Term :=
  match s with
  | .or => some (.bool false)
  | .and => some (.bool true)
  | .listCons => some (.sym .listNil)
  | .plus => arithMkZero T
  | .times => arithMkOne T
  | .concat | .fromBools => some (.bin 0 0#0)
  | .bvand => T.width.bind fun w => (eoToBin w 0).bind eoNot
  | .bvor | .bvxor | .bvadd => T.width.bind fun w => eoToBin w 0
  | .bvmul => T.width.bind fun w => eoToBin w 1
  | .strConcat => seqEmpty T
  | .reConcat => some (uop .strToRe (.str []))
  | .reInter => some (.sym .reAll)
  | .reUnion => some (.sym .reNone)
  | _ => none

/-- Does the nil terminator depend on the type of the list? -/
def Sym.nilIsParameterized : Sym → Bool
  | .plus | .times | .bvand | .bvor | .bvxor | .bvadd | .bvmul | .strConcat => true
  | _ => false

/-- The nil terminator that a list operator uses for the list `a`.  Only a
parameterized nil terminator asks for the type of `a`. -/
def nilFor (Γ : Nat → Ty) (s : Sym) (a : Term) : Option Term :=
  if s.nilIsParameterized then (typeof Γ a).bind (eoNil s) else eoNil s .bool

/-- The term `(s x1 ... xn)` of an `n`-ary operator, with the nil terminator
that `State::mkApplyAttr` appends for the type of `x1`. -/
def mkNary (Γ : Nat → Ty) (s : Sym) (x : Term) (xs : List Term) : Option Term :=
  (nilFor Γ s x).map fun nil => prependNAryChildren (.sym s) nil (x :: xs)

/-- The premises collected by `:premise-list _ and` in `State::notifyStep`. -/
def mkAnd (Fs : List Term) : Term := prependNAryChildren (.sym .and) (.bool true) Fs

@[simp] lemma mkAnd_nil : mkAnd [] = .bool true := rfl

@[simp] lemma mkAnd_cons (F : Term) (Fs : List Term) :
    mkAnd (F :: Fs) = bop .and F (mkAnd Fs) := rfl

end EthosCpc
