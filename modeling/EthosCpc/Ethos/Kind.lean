import Mathlib.Init

/-!
# Kinds of expressions

The enumeration of `kind.h`.
-/

namespace EthosCpc

inductive Kind
  | none
  -- types
  | type | functionType | programType | boolType | quoteType
  -- terms
  | apply | lambda | tuple | program | as | asReturn | parameterized | applyOpaque | any | proof
  -- symbols
  | param | const | builtinConst | programConst | proofRule | variable
  -- literals
  | boolean | numeral | decimal | rational | hexadecimal | binary | string
  -- operations on literals: core
  | evalIsOk | evalIsEq | evalIfThenElse | evalRequires | evalHash | evalTypeOf | evalNameOf
  | evalCompare
  -- testers
  | evalIsZ | evalIsQ | evalIsBin | evalIsStr | evalIsBool | evalIsVar
  -- equality
  | evalEq
  -- lists
  | evalNil | evalCons | evalListLength | evalListConcat | evalListNth | evalListFind
  | evalListErase | evalListEraseAll | evalListRev | evalListSetof | evalListMinclude
  | evalListMeq | evalListDiff | evalListInter | evalListSingletonElim
  -- boolean
  | evalNot | evalAnd | evalOr | evalXor
  -- arithmetic
  | evalAdd | evalNeg | evalMul | evalIntDiv | evalIntMod | evalRatDiv | evalIsNeg | evalGt
  -- strings
  | evalLength | evalConcat | evalExtract | evalFind
  -- conversions
  | evalToInt | evalToRat | evalToBin | evalToString
  -- datatypes
  | evalDtConstructors | evalDtSelectors
  deriving DecidableEq, Repr

namespace Kind

def isSymbol : Kind → Bool
  | param | const | programConst | proofRule => true
  | _ => false

def isLiteral : Kind → Bool
  | boolean | numeral | decimal | rational | hexadecimal | binary | string => true
  | _ => false

/-- The kinds of the values that `mkSymbolInternal` and `mkLiteralInternal`
build, which are not indexed by the expression trie. -/
def isAtom (k : Kind) : Bool := k.isSymbol || k.isLiteral || k = builtinConst

end Kind

end EthosCpc
