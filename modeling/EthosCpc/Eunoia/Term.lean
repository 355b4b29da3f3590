import Mathlib

/-!
# Terms of the CPC signature

Proof rules of the Cooperating Proof Calculus are Eunoia programs that
rewrite *terms*.  This module fixes the term language those programs work
on: the symbols the signature files declare, literals, user-declared
constants and curried application.

Every operator of the signature is applied one argument at a time, as
`State::mkApplyInternal` builds it: `(or a b)` is `app (app or a) b`.  An
operator declared `:right-assoc-nil` with nil terminator `n` therefore
appears as `app (app op x) (... n)`, and the programs see the nil
terminator as an ordinary last argument.

Types are kept in a language of their own, `Ty`.  The programs only ever
ask for the type of a term to read off a width, an arithmetic sort or a
nil terminator, so no type needs to be a term here.
-/

namespace EthosCpc

/-- Types of the signature.  `String` is `seq char`, as `Strings.eo` defines
it; `usort` stands for the sorts a user declares. -/
inductive Ty
  | bool
  | int
  | real
  | bitvec (w : Nat)
  | seq (elem : Ty)
  | char
  | reglan
  | usort (n : Nat)
  | fn (dom cod : Ty)
  deriving DecidableEq, Repr

/-- The symbols declared by the signature files.  Unary and binary `-` are
two symbols, since `Arith.eo` declares the name twice and the type checker
resolves the overload before a term is built. -/
inductive Sym
  -- theories/Builtin.eo
  | ite | not | or | and | imp | xor | eq
  -- the builtin list, `@list` in programs/Utils.eo
  | listNil | listCons
  -- theories/Arith.eo
  | plus | minus | times | lt | leq | gt | geq
  | toReal | toInt | isInt | abs | uminus
  -- theories/Ints.eo
  | div | mod | divisible | intPow2 | intLog2 | intIspow2 | divTotal | modTotal
  -- theories/Reals.eo
  | qdiv | qdivTotal
  -- theories/BitVectors.eo
  | bvsize | concat | extract | bvrepeat | bvnot | bvand | bvor | bvxor
  | bvneg | bvadd | bvmul | bvudiv | bvurem | bvsub
  | bvult | bvule | bvugt | bvuge | bvslt | bvsle | bvsgt | bvsge
  | bvshl | bvlshr | bvashr | zeroExtend | signExtend | bv
  | bvxnor | bvcomp | bvite | bvumulo | bvsmulo | bvultbv | bvsltbv | bit | fromBools
  -- theories/ArithBvConv.eo
  | intToBv | ubvToInt | sbvToInt
  -- theories/Strings.eo
  | seqEmpty (elem : Ty) | strConcat | strToRe
  | reNone | reAll | reAllchar | reConcat | reInter | reUnion
  | strLen | strSubstr | strAt | strContains | strPrefixof | strSuffixof
  | strReplace | strReplaceAll | strIndexof | strRev | strUpdate | seqUnit | seqNth
  | strToLower | strToUpper | strToCode | strFromCode | strIsDigit | strToInt | strFromInt
  | strLt | strLe | strInRe | strReplaceRe | strReplaceReAll | strIndexofRe
  | reStar | rePlus | rePow | reOpt | reComp | reRange | reDiff | reLoop
  -- theories/Builtin.eo, the purification skolem
  | purify
  -- programs/AciNorm.eo
  | aciSorted
  deriving DecidableEq, Repr

/-- `String::num_codes`: code points run from 0 to this number. -/
abbrev numCodes : Nat := 196608

/-- A character of a string literal.  The lexer accepts valid code points only. -/
abbrev CodePoint : Type := Fin numCodes

instance : NeZero numCodes := ⟨by decide⟩

abbrev Str : Type := List CodePoint

/-- Terms.  A binary literal carries its width in its type, so a value that
does not fit its width cannot be written down. -/
inductive Term
  | bool (b : Bool)
  | num (z : Int)
  | rat (q : Rat)
  | bin (w : Nat) (v : BitVec w)
  | str (s : Str)
  | sym (s : Sym)
  | const (n : Nat)
  | app (f a : Term)
  deriving DecidableEq, Repr

namespace Term

/-- Binary application `(s a b)` of a declared symbol. -/
abbrev bop (s : Sym) (a b : Term) : Term := .app (.app (.sym s) a) b

/-- Unary application `(s a)` of a declared symbol. -/
abbrev uop (s : Sym) (a : Term) : Term := .app (.sym s) a

/-- Number of nodes, the measure of the recursions that are not structural. -/
def size : Term → Nat
  | .app f a => f.size + a.size + 1
  | _ => 1

/-- The symbols that occur in a term. -/
def syms : Term → List Sym
  | .sym s => [s]
  | .app f a => f.syms ++ a.syms
  | _ => []

end Term

/-! ## Sorts of the signature that the programs test for -/

/-- `$is_arith_type`: the two sorts the arithmetic operators accept. -/
def Ty.isArithType : Ty → Bool
  | .int => true
  | .real => true
  | _ => false

/-- `$arith_mk_zero`: the zero of an arithmetic sort. -/
def arithMkZero : Ty → Option Term
  | .int => some (.num 0)
  | .real => some (.rat 0)
  | _ => none

/-- `$arith_mk_one`: the one of an arithmetic sort. -/
def arithMkOne : Ty → Option Term
  | .int => some (.num 1)
  | .real => some (.rat 1)
  | _ => none

end EthosCpc
