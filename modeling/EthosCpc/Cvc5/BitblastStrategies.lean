import EthosCpc.Cpc.Bitblasting

/-!
# Bit-blasting strategies of cvc5

The strategies of `theory/bv/bitblast/bitblast_strategies_template.h` and the
circuits of `bitblast_utils.h`, at the instance for nodes.  The bits of a term
are a list, least significant bit first, and a node is written as the term that
it is printed as, so that `mkAnd` and `mkOr` of two nodes have the nil
terminator of their connective.

A loop that walks over vectors of one length is a recursion over lists.  The
stages of the shifters go by index, as in the source; an index that is out of
range there is never read here.  What the source does not implement, and a
failed assertion, is `none`.
-/

namespace EthosCpc.Cvc5

open Term (bop uop)

/-! ## Connectives -/

abbrev mkTrue : Term := .bool true

abbrev mkFalse : Term := .bool false

abbrev mkNot (a : Term) : Term := uop .not a

abbrev mkXor (a b : Term) : Term := bop .xor a b

abbrev mkIff (a b : Term) : Term := bop .eq a b

/-- `mkAnd` of a vector. -/
def mkAndVector : List Term → Option Term
  | [] => none
  | [a] => some a
  | as => some (mkAnd as)

/-! ## Circuits -/

def negateBits (bits : List Term) : List Term := bits.map mkNot

def isZero (bits : List Term) : Bool := bits.all (· = mkFalse)

def makeZero (width : Nat) : List Term := List.replicate width mkFalse

/-- `rshift`, by at most the width. -/
def rshift (bits : List Term) (amount : Nat) : List Term := bits.drop amount ++ makeZero amount

/-- `lshift`, by at most the width. -/
def lshift (bits : List Term) (amount : Nat) : List Term :=
  makeZero amount ++ bits.take (bits.length - amount)

/-- `rippleCarryAdder`: the carry-out and the sum. -/
def rippleCarryAdder : List Term → List Term → Term → Term × List Term
  | a :: as, b :: bs, carry =>
    let r := rippleCarryAdder as bs (mkOr2 (mkAnd2 a b) (mkAnd2 (mkXor a b) carry))
    (r.1, mkXor (mkXor a b) carry :: r.2)
  | _, _, carry => (carry, [])

/-- The inner loop of `shiftAddMultiplier`: add the row of the bit `bk` to the bits from the
`k`-th on. -/
def addRow (bk : Term) : List Term → List Term → Term → List Term
  | r :: rs, a :: as, carry =>
    let aj := mkAnd2 bk a
    mkXor (mkXor r aj) carry :: addRow bk rs as (mkOr2 (mkAnd2 r aj) (mkAnd2 (mkXor r aj) carry))
  | _, _, _ => []

/-- The outer loop of `shiftAddMultiplier`, over the bits of `b` from the `k`-th on. -/
def addRows (a : List Term) : Nat → List Term → List Term → List Term
  | _, [], res => res
  | k, bk :: bs, res => addRows a (k + 1) bs (res.take k ++ addRow bk (res.drop k) a mkFalse)

def shiftAddMultiplier (a : List Term) : List Term → Option (List Term)
  | [] => none
  | b :: bs => some (addRows a 1 bs (a.map (mkAnd2 b)))

/-- The loop of `uLessThanBB`. -/
def uLessThanLoop : List Term → List Term → Term → Term
  | a :: as, b :: bs, res =>
    uLessThanLoop as bs (mkOr2 (mkAnd2 (mkIff a b) res) (mkAnd2 (mkNot a) b))
  | _, _, res => res

def uLessThanBB (a b : List Term) (orEqual : Bool) : Option Term :=
  match a, b with
  | a :: as, b :: bs =>
    let res := mkAnd2 (mkNot a) b
    some (uLessThanLoop as bs (if orEqual then mkOr2 res (mkIff a b) else res))
  | _, _ => none

def sLessThanBB (a b : List Term) (orEqual : Bool) : Option Term :=
  match a.getLast?, b.getLast? with
  | some an, some bn =>
    if a.length = 1 then
      some (if orEqual then mkOr2 (mkIff an bn) (mkAnd2 an (mkNot bn)) else mkAnd2 an (mkNot bn))
    else
      (uLessThanBB a.dropLast b.dropLast orEqual).map fun ures =>
        mkOr2 (mkAnd2 (mkIff an bn) ures) (mkAnd2 an (mkNot bn))
  | _, _ => none

/-! ## Strategies -/

/-- The conjunction of the equations of the bits. -/
def defaultEqBB (a b : List Term) : Option Term := mkAndVector (List.zipWith mkIff a b)

def defaultConstBB (w : Nat) (v : BitVec w) : List Term :=
  (List.range w).map fun i => .bool (v.toNat.testBit i)

/-- `DefaultConcatBB`, which starts with the last argument. -/
def defaultConcatBB (as : List (List Term)) : List Term := as.reverse.flatten

/-- `DefaultAndBB`, `DefaultOrBB` and `DefaultXorBB`, for their connective. -/
def bitwiseBB (gate : Term → Term → Term) (a : List Term) (as : List (List Term)) : List Term :=
  as.foldl (List.zipWith gate) a

def defaultAndBB : List Term → List (List Term) → List Term := bitwiseBB mkAnd2

def defaultOrBB : List Term → List (List Term) → List Term := bitwiseBB mkOr2

def defaultXorBB : List Term → List (List Term) → List Term := bitwiseBB mkXor

def defaultMultBB (a : List Term) (as : List (List Term)) : Option (List Term) :=
  as.foldlM shiftAddMultiplier a

def defaultAddBB (a : List Term) (as : List (List Term)) : List Term :=
  as.foldl (fun res current => (rippleCarryAdder res current mkFalse).2) a

/-- `DefaultSubBB`: `a + ~b + 1`. -/
def defaultSubBB (a b : List Term) : List Term := (rippleCarryAdder a (negateBits b) mkTrue).2

/-- `DefaultNegBB`: `~a + 0 + 1`. -/
def defaultNegBB (a : List Term) : List Term :=
  (rippleCarryAdder (negateBits a) (makeZero a.length) mkTrue).2

/-- The body of `uDivModRec` after the recursive call, which has given `q1` and `r1` for half of
the dividend. -/
def uDivModStep (a b q1 r1 : List Term) : List Term × List Term :=
  let q1 := lshift q1 1
  let r1 := lshift r1 1
  let isOdd := mkIff (a.headD mkFalse) mkTrue
  let oneIfOdd := mkIte isOdd mkTrue mkFalse
  let r1ShiftAdd := (rippleCarryAdder r1 (makeZero b.length) oneIfOdd).2
  let notB := negateBits b
  let rMinusB := rippleCarryAdder r1ShiftAdd notB mkTrue
  let sign := mkNot rMinusB.1
  let q1 := q1.set 0 (mkIte sign (q1.headD mkFalse) mkTrue)
  let r1ShiftAdd := List.zipWith (mkIte sign) r1ShiftAdd rMinusB.2
  let aLtB := mkNot (rippleCarryAdder a notB mkTrue).1
  (q1.map (mkIte aLtB mkFalse), List.zipWith (mkIte aLtB) a r1ShiftAdd)

/-- `uDivModRec`: the quotient and the remainder. -/
def uDivModRec (b : List Term) : List Term → Nat → List Term × List Term
  | a, 0 => (makeZero a.length, makeZero a.length)
  | a, recWidth + 1 =>
    if isZero a then (makeZero a.length, makeZero a.length)
    else
      let rec1 := uDivModRec b (rshift a 1) recWidth
      uDivModStep a b rec1.1 rec1.2

/-- `UdivUremBB`: `a udiv 0` is all ones and `a urem 0` is `a`. -/
def udivUremBB (a b : List Term) : Option (List Term × List Term) :=
  let res := uDivModRec b a a.length
  (mkAndVector (b.map fun bi => mkIff bi mkFalse)).map fun bIs0 =>
    (res.1.map (mkIte bIs0 mkTrue), List.zipWith (mkIte bIs0) a res.2)

/-- One stage of `DefaultShlBB`, by `threshold` bits. -/
def shlStage (bs : Term) (threshold : Nat) (prevRes : List Term) : List Term :=
  (List.range prevRes.length).map fun i =>
    if i < threshold then mkIte bs mkFalse (prevRes.getD i mkFalse)
    else mkIte bs (prevRes.getD (i - threshold) mkFalse) (prevRes.getD i mkFalse)

/-- One stage of `DefaultLshrBB` and `DefaultAshrBB`, which fill up with `fill`. -/
def shrStage (fill bs : Term) (threshold : Nat) (prevRes : List Term) : List Term :=
  (List.range prevRes.length).map fun i =>
    if prevRes.length ≤ i + threshold then mkIte bs fill (prevRes.getD i mkFalse)
    else mkIte (mkNot bs) (prevRes.getD i mkFalse) (prevRes.getD (i + threshold) mkFalse)

/-- A barrel shifter: the stages for the bits of the amount that matter, and the fill bit where
the amount is not below the width. -/
def shiftBB (stage : Term → Nat → List Term → List Term) (fill : Term) (a b : List Term) :
    Option (List Term) :=
  let size := a.length
  let log2Size := Nat.clog 2 size
  (uLessThanBB b (defaultConstBB size (BitVec.ofNat size size)) false).map fun bUltASize =>
    let res := (List.range log2Size).foldl (fun res s => stage (b.getD s mkFalse) (2 ^ s) res) a
    res.map fun r => mkIte bUltASize r fill

def defaultShlBB : List Term → List Term → Option (List Term) := shiftBB shlStage mkFalse

def defaultLshrBB : List Term → List Term → Option (List Term) := shiftBB (shrStage mkFalse) mkFalse

def defaultAshrBB (a b : List Term) : Option (List Term) :=
  a.getLast?.bind fun signBit => shiftBB (shrStage signBit) signBit a b

/-- `DefaultIteBB`, for a condition of one bit. -/
def defaultIteBB (cond thenpart elsepart : List Term) : Option (List Term) :=
  match cond with
  | [c] => some (List.zipWith (fun t e => mkAnd2 (mkOr2 (mkNot c) t) (mkOr2 c e)) thenpart elsepart)
  | _ => none

def defaultExtractBB (high low : Nat) (a : List Term) : List Term :=
  (a.drop low).take (high + 1 - low)

def defaultSignExtendBB (amount : Nat) (a : List Term) : Option (List Term) :=
  a.getLast?.map fun signBit => a ++ List.replicate amount signBit

/-! ## The table of strategies -/

/-- A bit-vector term, or an atom, whose arguments are blasted. -/
inductive BVApp
  | unary (k : Sym) (a : List Term)
  | binary (k : Sym) (a b : List Term)
  | nary (k : Sym) (a : List Term) (as : List (List Term))
  | extract (high low : Nat) (a : List Term)
  | ite (cond thenpart elsepart : List Term)
  | signExtend (amount : Nat) (a : List Term)
  | zeroExtend (amount : Nat) (a : List Term)
  | repeat (amount : Nat) (a : List Term)

/-- The bits of a term, as they are printed. -/
def fromBools (bits : List Term) : Term := prependNAryChildren (.sym .fromBools) bvEmpty bits

/-- The strategy for an application: a formula for an atom, and bits for a term. -/
def bitblast : BVApp → Option Term
  | .unary .bvnot a => some (fromBools (negateBits a))
  | .unary .bvneg a => some (fromBools (defaultNegBB a))
  | .binary .eq a b => defaultEqBB a b
  | .binary .bvult a b => uLessThanBB a b false
  | .binary .bvule a b => uLessThanBB a b true
  | .binary .bvslt a b => sLessThanBB a b false
  | .binary .bvsle a b => sLessThanBB a b true
  | .binary .bvxnor a b => some (fromBools (List.zipWith mkIff a b))
  | .binary .bvcomp a b => (defaultEqBB a b).map fun r => fromBools [r]
  | .binary .bvultbv a b => (uLessThanBB a b false).map fun r => fromBools [r]
  | .binary .bvsltbv a b => (sLessThanBB a b false).map fun r => fromBools [r]
  | .binary .bvsub a b => some (fromBools (defaultSubBB a b))
  | .binary .bvudiv a b => (udivUremBB a b).map fun r => fromBools r.1
  | .binary .bvurem a b => (udivUremBB a b).map fun r => fromBools r.2
  | .binary .bvshl a b => (defaultShlBB a b).map fromBools
  | .binary .bvlshr a b => (defaultLshrBB a b).map fromBools
  | .binary .bvashr a b => (defaultAshrBB a b).map fromBools
  | .nary .bvand a as => some (fromBools (defaultAndBB a as))
  | .nary .bvor a as => some (fromBools (defaultOrBB a as))
  | .nary .bvxor a as => some (fromBools (defaultXorBB a as))
  | .nary .bvadd a as => some (fromBools (defaultAddBB a as))
  | .nary .bvmul a as => (defaultMultBB a as).map fromBools
  | .nary .concat a as => some (fromBools (defaultConcatBB (a :: as)))
  | .extract high low a => some (fromBools (defaultExtractBB high low a))
  | .ite cond thenpart elsepart => (defaultIteBB cond thenpart elsepart).map fromBools
  | .signExtend amount a => (defaultSignExtendBB amount a).map fromBools
  -- `DefaultRepeatBB` and `DefaultZeroExtendBB` are not implemented: such terms are rewritten
  | _ => none

end EthosCpc.Cvc5
