import EthosCpc.Cpc.Evaluate

/-!
# Bit-blasting

The programs of `programs/Bitblasting.eo` and the rule `bv_bitblast_step`.
A bit-vector is blasted to the list of its bits, least significant bit
first: `(@from_bools b1 ... bn)` is a right-associative list with the nil
terminator `@bv_empty`, and every circuit is a recursion over such lists.

The programs match their arguments case by case, in the order of the
source, and are stuck when no case applies.  A counter that the source
only compares with `0` or with its last value is a natural number here
where the calls keep it non-negative, and an integer where a case can take
it below zero.  A pair of results, `@pair` in the source, is a Lean pair.
-/

namespace EthosCpc

open Term (bop uop)

abbrev bvEmpty : Term := .bin 0 0#0

/-- `(or a b)`, with the nil terminator of `or`. -/
abbrev mkOr2 (a b : Term) : Term := bop .or a (bop .or b (.bool false))

/-- `(and a b)`, with the nil terminator of `and`. -/
abbrev mkAnd2 (a b : Term) : Term := bop .and a (bop .and b (.bool true))

/-- `(ite c a b)`. -/
abbrev mkIte (c a b : Term) : Term := .app (bop .ite c a) b

/-! ## Lists of bits -/

def bvBitblastConcat : Term → Term → Option Term
  | .app (.app (.sym .fromBools) x) y, z => (bvBitblastConcat y z).map (bop .fromBools x)
  | .bin 0 _, z => some z
  | _, _ => none

def bvBitblastBinaryApp : Sym → Term → Term → Option Term
  | .and, a, b => some (mkAnd2 a b)
  | .or, a, b => some (mkOr2 a b)
  | .xor, a, b => some (bop .xor a b)
  | .eq, a, b => some (bop .eq a b)
  | _, _, _ => none

/-- `$bv_bitblast_repeat`, which does not end for a negative number. -/
def bvBitblastRepeat (b : Term) : Nat → Term
  | 0 => bvEmpty
  | n + 1 => bop .fromBools b (bvBitblastRepeat b n)

def bvBitblastPrefix (l : Int) (t : Term) : Option Term :=
  if l = 0 then some bvEmpty
  else
    match t with
    | .bin 0 _ => some bvEmpty
    | .app (.app (.sym .fromBools) b) a => (bvBitblastPrefix (l + -1) a).map (bop .fromBools b)
    | _ => none

def bvBitblastHead : Term → Option Term
  | .app (.app (.sym .fromBools) b) _ => some b
  | _ => none

def bvBitblastTail : Term → Option Term
  | .app (.app (.sym .fromBools) _) a => some a
  | _ => none

def bvBitblastSubsequence (l u : Int) (t : Term) : Option Term :=
  match t with
  | .bin 0 _ => some bvEmpty
  | .app (.app (.sym .fromBools) b) a =>
    if l = 0 then bvBitblastPrefix (u + 1) (bop .fromBools b a)
    else bvBitblastSubsequence (l + -1) (u + -1) a
  | t => if l = 0 then bvBitblastPrefix (u + 1) t else none

def bvBitblastZero (n : Nat) : Term := bvBitblastRepeat (.bool false) n

/-- `(eo::list_rev @from_bools a)`. -/
def bvBitblastRev (a : Term) : Option Term := eoListRev (.sym .fromBools) bvEmpty a

def bvBitblastSignBit (a : Term) : Option Term := (bvBitblastRev a).bind bvBitblastHead

def bvBitblastApplyUnary (f : Sym) : Term → Option Term
  | .bin 0 _ => some bvEmpty
  | .app (.app (.sym .fromBools) b1) a1 =>
    (bvBitblastApplyUnary f a1).map (bop .fromBools (uop f b1))
  | _ => none

def bvBitblastApplyBinary (f : Sym) : Term → Term → Option Term
  | .bin 0 _, .bin 0 _ => some bvEmpty
  | .app (.app (.sym .fromBools) b1) a1, .app (.app (.sym .fromBools) b2) a2 =>
    (bvBitblastBinaryApp f b1 b2).bind fun b =>
      (bvBitblastApplyBinary f a1 a2).map (bop .fromBools b)
  | _, _ => none

def bvBitblastApplyIte (bc : Term) : Term → Term → Option Term
  | .bin 0 _, .bin 0 _ => some bvEmpty
  | .app (.app (.sym .fromBools) b1) a1, .app (.app (.sym .fromBools) b2) a2 =>
    (bvBitblastApplyIte bc a1 a2).map (bop .fromBools (mkIte bc b1 b2))
  | _, _ => none

def bvBitblastRshift (a : Term) (amount : Nat) : Option Term :=
  (eoListLen (.sym .fromBools) bvEmpty a).bind fun len =>
    (bvBitblastSubsequence amount len a).bind fun s =>
      bvBitblastConcat s (bvBitblastRepeat (.bool false) amount)

def bvBitblastLshift (a : Term) (amount : Nat) : Option Term :=
  (eoListLen (.sym .fromBools) bvEmpty a).bind fun len =>
    (bvBitblastSubsequence 0 (len + -amount + -1) a).bind fun s =>
      bvBitblastConcat (bvBitblastRepeat (.bool false) amount) s

/-! ## Equality and inequality -/

def bvMkBitblastStepEqRec : Term → Term → Option Term
  | .bin 0 _, .bin 0 _ => some (.bool true)
  | .app (.app (.sym .fromBools) b1) a1, .app (.app (.sym .fromBools) b2) a2 =>
    (bvMkBitblastStepEqRec a1 a2).map (bop .and (bop .eq b1 b2))
  | _, _ => none

def bvMkBitblastStepEq (a1 a2 : Term) : Option Term :=
  (bvMkBitblastStepEqRec a1 a2).bind (eoListSingletonElim (.sym .and) (.bool true))

def bvBitblastUltRec : Term → Term → Term → Option Term
  | .bin 0 _, .bin 0 _, res => some res
  | .app (.app (.sym .fromBools) b1) a1, .app (.app (.sym .fromBools) b2) a2, res =>
    bvBitblastUltRec a1 a2 (mkOr2 (mkAnd2 (bop .eq b1 b2) res) (mkAnd2 (uop .not b1) b2))
  | _, _, _ => none

/-- `$bv_bitblast_ult`.  The recursion goes on with `res`, and `res2`, the
variant for `bvule`, is not used. -/
def bvBitblastUlt (x y : Term) (orEqual : Bool) : Option Term :=
  match x, y with
  | .app (.app (.sym .fromBools) b1) a1, .app (.app (.sym .fromBools) b2) a2 =>
    let res := mkAnd2 (uop .not b1) b2
    let _res2 := if orEqual then mkOr2 res (bop .eq b1 b2) else res
    bvBitblastUltRec a1 a2 res
  | _, _ => none

/-- `$bv_bitblast_slt_impl`, on lists with the sign bit in front. -/
def bvBitblastSltImpl (x y : Term) (orEqual : Bool) : Option Term :=
  match x, y with
  -- bitwidth one case is handled separately
  | .app (.app (.sym .fromBools) b1) (.bin 0 _), .app (.app (.sym .fromBools) b2) (.bin 0 _) =>
    some (if orEqual then mkOr2 (bop .eq b1 b2) (mkAnd2 b1 (uop .not b2))
      else mkAnd2 b1 (uop .not b2))
  | .app (.app (.sym .fromBools) b1) a1, .app (.app (.sym .fromBools) b2) a2 =>
    (bvBitblastRev a1).bind fun r1 => (bvBitblastRev a2).bind fun r2 =>
    (bvBitblastUlt r1 r2 orEqual).map fun ures =>
      mkOr2 (mkAnd2 (bop .eq b1 b2) ures) (mkAnd2 b1 (uop .not b2))
  | _, _ => none

def bvBitblastSlt (x y : Term) (orEqual : Bool) : Option Term :=
  -- reverse to make sign bit extractable
  (bvBitblastRev x).bind fun rx => (bvBitblastRev y).bind fun ry =>
    bvBitblastSltImpl rx ry orEqual

/-! ## Extract, concat and the bitwise operators -/

/-- `$bv_mk_bitblast_step_extract`, whose indices are numerals. -/
def bvMkBitblastStepExtract : Term → Term → Term → Option Term
  | .num u, .num l, a => bvBitblastSubsequence l u a
  | _, _, _ => none

def bvMkBitblastStepConcat : Term → Option Term
  | .bin 0 _ => some bvEmpty
  | .app (.app (.sym .concat) a1) a2 =>
    (bvMkBitblastStepConcat a2).bind fun r => bvBitblastConcat r a1
  | _ => none

def bvMkBitblastStepBitwise (bf f : Sym) : Term → Term → Option Term
  | .app (.app (.sym s) a1) a2, ac =>
    if s = bf then
      (bvBitblastApplyBinary f ac a1).bind (bvMkBitblastStepBitwise bf f a2)
    else some ac
  | _, ac => some ac

/-! ## Addition -/

def bvRippleCarryAdder2 : Term → Term → Term → Term → Option (Term × Term)
  | .app (.app (.sym .fromBools) b1) a1, .app (.app (.sym .fromBools) b2) a2, carry, res =>
    bvRippleCarryAdder2 a1 a2 (mkOr2 (mkAnd2 b1 b2) (mkAnd2 (bop .xor b1 b2) carry))
      (bop .fromBools (bop .xor (bop .xor b1 b2) carry) res)
  | .bin 0 _, .bin 0 _, carry, res => (bvBitblastRev res).map fun r => (carry, r)
  | _, _, _, _ => none

def bvRippleCarryAdder (a1 a2 carry : Term) : Option Term :=
  (bvRippleCarryAdder2 a1 a2 carry bvEmpty).map Prod.snd

def bvMkBitblastStepAdd : Term → Term → Option Term
  | .app (.app (.sym .bvadd) a1) a2, ac =>
    (bvRippleCarryAdder ac a1 (.bool false)).bind (bvMkBitblastStepAdd a2)
  | _, ac => some ac

/-! ## Multiplication -/

def bvShiftAddMultiplierRecStep (b1 : Term) : Term → Int → Term → Term → Option Term
  | _, k, .bin 0 _, _ => if k = 0 then some bvEmpty else none
  | a2, k, .app (.app (.sym .fromBools) br) ar, carry =>
    match a2, k with
    | .app (.app (.sym .fromBools) b2) a2, 0 =>
      let aj := mkAnd2 b1 b2
      (bvShiftAddMultiplierRecStep b1 a2 0 ar
        (mkOr2 (mkAnd2 br aj) (mkAnd2 (bop .xor br aj) carry))).map
          (bop .fromBools (bop .xor (bop .xor br aj) carry))
    | a2, k =>
      (bvShiftAddMultiplierRecStep b1 a2 (k + -1) ar carry).map (bop .fromBools br)
  | _, _, _, _ => none

def bvShiftAddMultiplierRec : Term → Term → Int → Term → Option Term
  | .bin 0 _, _, _, res => some res
  | .app (.app (.sym .fromBools) b1) a1, a2, k, res =>
    (bvShiftAddMultiplierRecStep b1 a2 k res (.bool false)).bind
      (bvShiftAddMultiplierRec a1 a2 (k + 1))
  | _, _, _, _ => none

section Widths

variable (Γ : Nat → Ty)

def bvShiftAddMultiplier : Term → Term → Option Term
  | a2, .app (.app (.sym .fromBools) b1) a1 =>
    (bvBitwidth Γ a2).bind fun sz =>
    (bvBitblastApplyBinary .and (bvBitblastRepeat b1 sz) a2).bind (bvShiftAddMultiplierRec a1 a2 1)
  | _, _ => none

def bvMkBitblastStepMul : Term → Term → Option Term
  | .app (.app (.sym .bvmul) a1) a2, ac =>
    (bvShiftAddMultiplier Γ ac a1).bind (bvMkBitblastStepMul a2)
  | _, ac => some ac

/-! ## Division and remainder -/

def bvDivModImpl (a1 a2 zero : Term) : Nat → Option (Term × Term)
  | 0 => some (zero, zero)
  | sz + 1 =>
    if a1 = zero then some (zero, zero)
    else
      (bvBitblastRshift a1 1).bind fun a1s =>
      (bvDivModImpl a1s a2 zero sz).bind fun recres =>
      (bvBitblastHead a1).bind fun isodd =>
      (bvBitblastLshift recres.1 1).bind fun q1s =>
      (bvBitblastLshift recres.2 1).bind fun r1s =>
      (bvRippleCarryAdder r1s zero
        (mkIte (bop .eq isodd (.bool true)) (.bool true) (.bool false))).bind fun r1sa =>
      (bvBitblastApplyUnary .not a2).bind fun a2n =>
      (bvRippleCarryAdder2 r1sa a2n (.bool true) bvEmpty).bind fun cares1 =>
      (bvBitblastHead q1s).bind fun hq =>
      (bvBitblastTail q1s).bind fun tq =>
      let q1ss := bop .fromBools (mkIte (uop .not cares1.1) hq (.bool true)) tq
      (bvBitblastApplyIte (uop .not cares1.1) r1sa cares1.2).bind fun r1sa2 =>
      (bvRippleCarryAdder2 a1 a2n (.bool true) bvEmpty).bind fun cares2 =>
      (bvBitblastApplyIte (uop .not cares2.1) zero q1ss).bind fun q =>
      (bvBitblastApplyIte (uop .not cares2.1) a1 r1sa2).map fun r => (q, r)

def bvMkBitblastStepUdiv (a1 a2 : Term) : Option Term :=
  (bvBitwidth Γ a1).bind fun sz =>
  (bvDivModImpl a1 a2 (bvBitblastZero sz) sz).bind fun res =>
  (bvMkBitblastStepEq a2 (bvBitblastZero sz)).bind fun isz =>
    bvBitblastApplyIte isz (bvBitblastRepeat (.bool true) sz) res.1

def bvMkBitblastStepUrem (a1 a2 : Term) : Option Term :=
  (bvBitwidth Γ a1).bind fun sz =>
  (bvDivModImpl a1 a2 (bvBitblastZero sz) sz).bind fun res =>
  (bvMkBitblastStepEq a2 (bvBitblastZero sz)).bind fun isz =>
    bvBitblastApplyIte isz a1 res.2

/-! ## If-then-else and constants -/

def bvMkBitblastStepIte (ac : Term) : Term → Term → Option Term
  | .app (.app (.sym .fromBools) b1) a1, .app (.app (.sym .fromBools) b2) a2 =>
    match ac with
    | .app (.app (.sym .fromBools) bc) (.bin 0 _) =>
      (bvMkBitblastStepIte ac a1 a2).map
        (bop .fromBools (mkAnd2 (mkOr2 (uop .not bc) b1) (mkOr2 bc b2)))
    | _ => none
  | .bin 0 _, .bin 0 _ =>
    match ac with
    | .app (.app (.sym .fromBools) _) (.bin 0 _) => some bvEmpty
    | _ => none
  | _, _ => none

def bvBitSet (a : Term) (i : Int) : Option Bool :=
  (eoExtract a i i).map fun b => decide (b = .bin 1 1#1)

/-- `$bv_const_to_bitlist_rec` with `k` bits to go, from the index `i` on. -/
def bvConstToBitlistRec (c : Term) : Nat → Nat → Option Term
  | _, 0 => some bvEmpty
  | i, k + 1 =>
    (bvBitSet c i).bind fun b =>
      (bvConstToBitlistRec c (i + 1) k).map (bop .fromBools (.bool b))

def bvMkBitblastStepConst : Term → Option Term
  | .bin w v => bvConstToBitlistRec (.bin w v) 0 w
  | _ => none

/-! ## Shifts -/

def bvMkBitblastStepShlRecStep : Term → Term → Int → Term → Option Term
  | .bin 0 _, _, _, _ => some bvEmpty
  | .app (.app (.sym .fromBools) b1) a1, a1c, i, b2 =>
    match a1c, i with
    | .app (.app (.sym .fromBools) b1c) a1c, 0 =>
      (bvMkBitblastStepShlRecStep a1 a1c 0 b2).map (bop .fromBools (mkIte b2 b1c b1))
    | a1c, i =>
      (bvMkBitblastStepShlRecStep a1 a1c (i + -1) b2).map
        (bop .fromBools (mkIte b2 (.bool false) b1))
  | _, _, _, _ => none

def bvMkBitblastStepShlRec (lsz : Int) (a1 a2 : Term) (s : Int) : Option Term :=
  if s = lsz then some a1
  else
    match a2 with
    | .app (.app (.sym .fromBools) b2) a2 =>
      (bvMkBitblastStepShlRecStep a1 a1 (arithEvalIntPow2Num s) b2).bind fun r =>
        bvMkBitblastStepShlRec lsz r a2 (s + 1)
    | _ => none

/-- The number `lsz` of bits of a shift amount that can be set below the width. -/
def bvShiftBits (sz : Nat) : Option Int :=
  match arithEvalIntLog2 (.num sz), arithEvalIntIsPow2 (.num sz) with
  | some (.num lsz1), some (.bool isPow2) => some (if isPow2 then lsz1 else lsz1 + 1)
  | _, _ => none

def bvMkBitblastStepShl (a1 a2 : Term) : Option Term :=
  (bvBitwidth Γ a1).bind fun sz =>
  (bvShiftBits sz).bind fun lsz =>
  (bvMkBitblastStepShlRec lsz a1 a2 0).bind fun res =>
  ((eoToBin sz sz).bind bvMkBitblastStepConst).bind fun szc =>
  (bvBitblastUlt a2 szc false).bind fun lt =>
    bvBitblastApplyIte lt res (bvBitblastRepeat (.bool false) sz)

def bvMkBitblastStepShrRecStep (a1 a1c : Term) (i : Int) (b2 sbit : Term) : Option Term :=
  match a1, a1c with
  | .bin 0 _, _ => some bvEmpty
  | .app (.app (.sym .fromBools) b1) a1, .app (.app (.sym .fromBools) b1c) a1c =>
    if i = 0 then
      (bvMkBitblastStepShrRecStep a1 a1c 0 b2 sbit).map
        (bop .fromBools (mkIte (uop .not b2) b1 b1c))
    else bvMkBitblastStepShrRecStep (bop .fromBools b1 a1) a1c (i + -1) b2 sbit
  | .app (.app (.sym .fromBools) b1) a1, .bin 0 v =>
    if i = 0 then
      (bvMkBitblastStepShrRecStep a1 (.bin 0 v) 0 b2 sbit).map (bop .fromBools (mkIte b2 sbit b1))
    else none
  | a1, .app (.app (.sym .fromBools) _) a1c =>
    bvMkBitblastStepShrRecStep a1 a1c (i + -1) b2 sbit
  | _, _ => none
termination_by a1.size + a1c.size
decreasing_by all_goals simp_wf; simp only [Term.size]; omega

def bvMkBitblastStepShrRec (lsz : Int) (sbit a1 a2 : Term) (s : Int) : Option Term :=
  if s = lsz then some a1
  else
    match a2 with
    | .app (.app (.sym .fromBools) b2) a2 =>
      (bvMkBitblastStepShrRecStep a1 a1 (arithEvalIntPow2Num s) b2 sbit).bind fun r =>
        bvMkBitblastStepShrRec lsz sbit r a2 (s + 1)
    | _ => none

def bvMkBitblastStepShr (a1 a2 sbit : Term) : Option Term :=
  (bvBitwidth Γ a1).bind fun sz =>
  (bvShiftBits sz).bind fun lsz =>
  (bvMkBitblastStepShrRec lsz sbit a1 a2 0).bind fun res =>
  ((eoToBin sz sz).bind bvMkBitblastStepConst).bind fun szc =>
  (bvBitblastUlt a2 szc false).bind fun lt =>
    bvBitblastApplyIte lt res (bvBitblastRepeat sbit sz)

/-! ## Variables -/

/-- `$bv_mk_bitblast_step_var_rec`, on the bits below an index. -/
def bvMkBitblastStepVarRec (a : Term) : Nat → Term
  | 0 => bvEmpty
  | i + 1 => bop .fromBools (bop .bit (.num i) a) (bvMkBitblastStepVarRec a i)

def bvMkBitblastStepVar (a : Term) : Option Term :=
  (bvBitwidth Γ a).bind fun w => bvBitblastRev (bvMkBitblastStepVarRec a w)

/-! ## One step -/

/-- The last case of `$bv_mk_bitblast_step`, for constants and variables. -/
def bvMkBitblastStepAtom (a : Term) : Option Term :=
  if isBin a then bvMkBitblastStepConst a else bvMkBitblastStepVar Γ a

/-- The cases of `$bv_mk_bitblast_step` for two arguments. -/
def bvMkBitblastStepBop (s : Sym) (a1 a2 : Term) : Option Term :=
  match s with
  | .eq => bvMkBitblastStepEq a1 a2
  | .bvult => bvBitblastUlt a1 a2 false
  | .bvule => bvBitblastUlt a1 a2 true
  | .bvslt => bvBitblastSlt a1 a2 false
  | .bvsle => bvBitblastSlt a1 a2 true
  | .concat => bvMkBitblastStepConcat (bop .concat a1 a2)
  | .bvor => bvMkBitblastStepBitwise .bvor .or a2 a1
  | .bvand => bvMkBitblastStepBitwise .bvand .and a2 a1
  | .bvxor => bvMkBitblastStepBitwise .bvxor .xor a2 a1
  | .bvxnor => bvBitblastApplyBinary .eq a1 a2
  | .bvadd => bvMkBitblastStepAdd a2 a1
  | .bvmul => bvMkBitblastStepMul Γ a2 a1
  | .bvudiv => bvMkBitblastStepUdiv Γ a1 a2
  | .bvurem => bvMkBitblastStepUrem Γ a1 a2
  | .bvsub => (bvBitblastApplyUnary .not a2).bind fun n => bvRippleCarryAdder a1 n (.bool true)
  | .bvashr => (bvBitblastSignBit a1).bind (bvMkBitblastStepShr Γ a1 a2)
  | .bvlshr => bvMkBitblastStepShr Γ a1 a2 (.bool false)
  | .bvshl => bvMkBitblastStepShl Γ a1 a2
  | .bvcomp => (bvMkBitblastStepEq a1 a2).map fun b => bop .fromBools b bvEmpty
  | .bvultbv => (bvBitblastUlt a1 a2 false).map fun b => bop .fromBools b bvEmpty
  | .bvsltbv => (bvBitblastSlt a1 a2 false).map fun b => bop .fromBools b bvEmpty
  | .signExtend =>
    match a1 with
    | .num n =>
      if n < 0 then none
      else (bvBitblastSignBit a2).bind fun s =>
        bvBitblastConcat a2 (bvBitblastRepeat s n.toNat)
    | _ => none
  | s => bvMkBitblastStepAtom Γ (bop s a1 a2)

def bvMkBitblastStep : Term → Option Term
  | .app (.sym .bvnot) a1 => bvBitblastApplyUnary .not a1
  | .app (.sym .bvneg) a1 =>
    (bvBitblastApplyUnary .not a1).bind fun n => (bvBitwidth Γ a1).bind fun w =>
      bvRippleCarryAdder n (bvBitblastZero w) (.bool true)
  | .app (.app (.sym s) a1) a2 => bvMkBitblastStepBop Γ s a1 a2
  | .app (.app (.app (.sym .extract) u) l) a1 => bvMkBitblastStepExtract u l a1
  | .app (.app (.app (.sym .bvite) ac) a1) a2 => bvMkBitblastStepIte ac a1 a2
  | a => bvMkBitblastStepAtom Γ a

def bvBitblastStep (a b : Term) : Option Term :=
  (bvMkBitblastStep Γ a).bind fun b' => if b' = b then some (bop .eq a b) else none

end Widths

end EthosCpc
