import EthosCpc.Semantics.Strings

/-!
# Native values

The classes `Integer`, `BitVector` and `String` of `util/`, as far as the
evaluator of `theory/evaluator.cpp` computes with them.  An `Integer` is
unbounded; positions and sizes are 32-bit numbers, and `toUnsignedInt` keeps
the 32 low bits of what it is given.

A bit-vector has a 32-bit size and a string at most `maxSize` characters.
These are fields of the two structures, and an operation that would leave the
range has no result.
-/

namespace EthosCpc.Cvc5

/-! ## `Integer` -/

namespace Integer

/-- `toUnsignedInt`, which drops all but the 32 low bits. -/
def toUnsignedInt (z : Int) : Nat := z.natAbs % 2 ^ 32

def fitsUnsignedInt (z : Int) : Bool := decide (0 ≤ z ∧ z < 2 ^ 32)

def extractBitRange (v bitCount low : Nat) : Nat := v % 2 ^ (low + bitCount) / 2 ^ low

/-- `oneExtend`: set the `amount` bits from bit `size` on. -/
def oneExtend (v size amount : Nat) : Nat := (List.range' size amount).foldl (· ||| 2 ^ ·) v

/-- `floorQR`: quotient and remainder with the sign of the divisor. -/
def floorQR (x y : Int) : Int × Int := (x.fdiv y, x.fmod y)

/-- `euclidianQR`.  The inner test of the source looks at the remainder again,
which is negative there. -/
def euclidianQR (x y : Int) : Int × Int :=
  let (q, r) := floorQR x y
  if r < 0 then
    if r ≥ 0 then (q - 1, r + y) else (q + 1, r - y)
  else (q, r)

def euclidianDivideQuotient (x y : Int) : Int := (euclidianQR x y).1

def euclidianDivideRemainder (x y : Int) : Int := (euclidianQR x y).2

/-- The number of ones in binary notation. -/
def popcount (n : Nat) : Nat := n.bits.count true

/-- `isPow2`, as a test. -/
def isPow2 (z : Int) : Bool := if z ≤ 0 then false else popcount z.toNat == 1

/-- `length`: the number of binary digits. -/
def length (z : Int) : Nat := if z = 0 then 1 else z.natAbs.size

end Integer

/-! ## `BitVector` -/

/-- Bit-vectors: `d_size` and `d_value`. -/
structure BitVector where
  size : Nat
  value : Nat
  size_lt : size < 2 ^ 32
  value_lt : value < 2 ^ size
  deriving DecidableEq

namespace BitVector

open Integer

def ofInteger (size : Nat) (h : size < 2 ^ 32) (val : Int) : BitVector where
  size := size
  value := (val % 2 ^ size).toNat
  size_lt := h
  value_lt := by
    have hpos : (0 : Int) < 2 ^ size := by positivity
    have hlt := Int.emod_lt_of_pos val hpos
    have hnn := Int.emod_nonneg val hpos.ne'
    zify
    rwa [Int.toNat_of_nonneg hnn]

/-- The constructor `BitVector(size, val)`. -/
def make (size : Nat) (val : Int) : Option BitVector :=
  if h : size < 2 ^ 32 then some (ofInteger size h val) else none

def resized (a : BitVector) (val : Int) : BitVector := ofInteger a.size a.size_lt val

variable (a y : BitVector)

def isBitSet (i : Nat) : Bool := extractBitRange a.value 1 i != 0

def toSignedInteger : Int :=
  -1 * ((extractBitRange a.value 1 (a.size - 1) : Int) * 2 ^ (a.size - 1)) +
    extractBitRange a.value (a.size - 1) 0

def concat : Option BitVector :=
  make (a.size + y.size) ((a.value : Int) * 2 ^ y.size + y.value)

def extract (high low : Nat) : Option BitVector :=
  if high < a.size ∧ low ≤ high then
    make (high - low + 1) (extractBitRange a.value (high - low + 1) low)
  else none

def unsignedLessThan : Bool := decide (a.value < y.value)

def unsignedLessThanEq : Bool := decide (a.value ≤ y.value)

def signedLessThan : Bool := decide (a.toSignedInteger < y.toSignedInteger)

def signedLessThanEq : Bool := decide (a.toSignedInteger ≤ y.toSignedInteger)

def bitXor : BitVector := a.resized (a.value ^^^ y.value : Nat)

def bitOr : BitVector := a.resized (a.value ||| y.value : Nat)

def bitAnd : BitVector := a.resized (a.value &&& y.value : Nat)

/-- `operator~`. -/
def bitNot : BitVector := a.resized (-(a.value : Int) - 1)

def add : BitVector := a.resized ((a.value : Int) + y.value)

/-- The unary `operator-`. -/
def neg : BitVector := a.bitNot.add (a.resized 1)

def mul : BitVector := a.resized ((a.value : Int) * y.value)

def unsignedDivTotal : BitVector :=
  if y.value = 0 then a.resized (oneExtend 1 1 (a.size - 1)) else a.resized (a.value / y.value : Nat)

def unsignedRemTotal : BitVector :=
  if y.value = 0 then a.resized a.value else a.resized (a.value % y.value : Nat)

def zeroExtend (n : Nat) : Option BitVector := make (a.size + n) a.value

def signExtend (n : Nat) : Option BitVector :=
  if extractBitRange a.value 1 (a.size - 1) = 0 then make (a.size + n) a.value
  else make (a.size + n) (oneExtend a.value a.size n)

def leftShift : BitVector :=
  if y.value > a.size then a.resized 0
  else if y.value = 0 then a
  else a.resized ((a.value : Int) * 2 ^ toUnsignedInt y.value)

def arithRightShift : BitVector :=
  let signBit := extractBitRange a.value 1 (a.size - 1)
  if y.value > a.size then
    if signBit = 0 then a.resized 0 else a.resized ((a.size : Int) * 2 ^ a.size - 1)
  else if y.value = 0 then a
  else
    let amount := toUnsignedInt y.value
    let rest := a.value / 2 ^ amount
    if signBit = 0 then a.resized rest
    else a.resized (oneExtend rest (a.size - amount) amount)

end BitVector

/-! ## `String` -/

def maxSize : Nat := 2 ^ 32 - 1

/-- Strings: the code points `d_str`. -/
structure CodeString where
  chars : Str
  size_le : chars.length ≤ maxSize
  deriving DecidableEq

namespace CodeString

/-- The constructor from a vector of code points. -/
def ofVec (l : Str) : Option CodeString := if h : l.length ≤ maxSize then some ⟨l, h⟩ else none

variable (s : Str)

def find (y : Str) (start : Nat) : Option Nat :=
  if s.length < y.length + start then none
  else if y = [] then some start
  else if s = [] then none
  else (Library.Words.find y (s.drop start)).map (start + ·)

/-- `String::substr` with a length. -/
def substr (i j : Nat) : Str := (s.drop i).take j

def suffix (i : Nat) : Str := substr s (s.length - i) i

def update (i : Nat) (t : Str) : Str :=
  if i < s.length then
    if t.length ≥ s.length - i then s.take i ++ t.take (s.length - i)
    else s.take i ++ t ++ s.drop (i + t.length)
  else s

def replace (x t : Str) : Str :=
  match find s x 0 with
  | some ret => s.take ret ++ t ++ s.drop (ret + x.length)
  | none => s

/-- The loop of `str.replace_all`, from position `index` on. -/
def replaceAllLoop (x y : Str) : Nat → Nat → Str → Str
  | 0, _, chars => chars
  | fuel + 1, index, chars =>
    match find s x index with
    | some curr =>
      if curr < s.length then
        replaceAllLoop x y fuel (curr + x.length) (chars ++ (s.take curr).drop index ++ y)
      else chars ++ (s.take curr).drop index ++ y
    | none => chars ++ s.drop index

def isDigit (c : CodePoint) : Bool := decide (48 ≤ c.val ∧ c.val ≤ 57)

def isNumber : Bool := !s.isEmpty && s.all isDigit

def isLeq : Str → Str → Bool
  | [], _ => true
  | _ :: _, [] => false
  | c :: s, d :: t => if c > d then false else if c < d then true else isLeq s t

end CodeString

end EthosCpc.Cvc5
