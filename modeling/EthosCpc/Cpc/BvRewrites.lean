import EthosCpc.Cpc.AciNorm
import EthosCpc.Cpc.Bitblasting

/-!
# Parametric bit-vector rewrites

The rules `bv-repeat-elim`, `bv-smulo-elim`, `bv-umulo-elim`,
`bv-bitwise-slicing` and `bv_poly_norm_eq` of `rules/BitVectors.eo`, with
the programs they call.  A rule is a function of its arguments that
returns its conclusion, or `none` when a side condition does not hold or
does not evaluate.

The applications of `bvand`, `bvor`, `bvxor`, `bvmul` and `concat` in the
bodies of the programs get the nil terminator of the type of their first
argument, which `mkNary` computes.
-/

namespace EthosCpc

open Term (bop uop)

variable (Γ : Nat → Ty)

/-- `(extract h l a)`. -/
abbrev mkExtract (h l : Int) (a : Term) : Term := .app (bop .extract (.num h) (.num l)) a

/-- `(extract i i a)`. -/
abbrev mkBitOf (i : Nat) (a : Term) : Term := mkExtract i i a

/-! ## `bv-repeat-elim` -/

def bvUnfoldRepeatRec (b : Term) : Nat → Term
  | 0 => .bin 0 0#0
  | n + 1 => bop .concat b (bvUnfoldRepeatRec b n)

def bvUnfoldRepeat : Term → Term → Option Term
  | .num i, b =>
    if i < 0 then some (bop .bvrepeat (.num i) b) else some (bvUnfoldRepeatRec b i.toNat)
  | n, b => (eoIsNeg n).map fun _ => bop .bvrepeat n b

def bvRepeatElim (n a b : Term) : Option Term :=
  if (bvUnfoldRepeat n a).bind (listSingletonElim Γ .concat) = some b then
    some (bop .eq (bop .bvrepeat n a) b)
  else none

/-! ## `bv-smulo-elim` -/

/-- `$bv_smulo_elim_rec`, with `k` indices to go to `nm2`. -/
def bvSmuloElimRec (xa xb : Term) : Term → Term → Nat → Nat → Option Term
  | _, res, _, 0 => some res
  | ppc, res, i, k + 1 =>
    -- `ia` is `nm2 - i`
    let ia := k + 1
    let ip1 := i + 1
    (mkNary Γ .bvor ppc [mkBitOf ia xa]).bind fun ppcn =>
    (mkNary Γ .bvand (mkBitOf ip1 xb) [ppcn]).bind fun conj =>
    (mkNary Γ .bvor res [conj]).bind fun resn =>
      bvSmuloElimRec xa xb ppcn resn ip1 k

/-- `$bv_smulo_elim`.  It does not end for the width zero. -/
def bvSmuloElim (a b : Term) : Option Term :=
  (bvBitwidth Γ a).bind fun w =>
  match w with
  | 0 => none
  | 1 => (mkNary Γ .bvand a [b]).map fun c => bop .eq c (.bin 1 1#1)
  | 2 =>
    (mkNary Γ .bvmul (bop .signExtend (.num 1) a) [bop .signExtend (.num 1) b]).bind fun mul =>
    (mkNary Γ .bvxor (mkBitOf 2 mul) [mkBitOf 1 mul]).map fun x => bop .eq x (.bin 1 1#1)
  | w + 3 =>
    (mkNary Γ .bvmul (bop .signExtend (.num 1) a) [bop .signExtend (.num 1) b]).bind fun mul =>
    (mkNary Γ .bvxor a [bop .signExtend (.num (w + 2 : Nat)) (mkBitOf (w + 2) a)]).bind fun xa =>
    (mkNary Γ .bvxor b [bop .signExtend (.num (w + 2 : Nat)) (mkBitOf (w + 2) b)]).bind fun xb =>
    let ppc := mkBitOf (w + 1) xa
    (mkNary Γ .bvand (mkBitOf 1 xb) [ppc]).bind fun res0 =>
    (bvSmuloElimRec Γ xa xb ppc res0 1 w).bind fun res =>
    (mkNary Γ .bvxor (mkBitOf (w + 3) mul) [mkBitOf (w + 2) mul]).bind fun x =>
    (mkNary Γ .bvor res [x]).map fun r => bop .eq r (.bin 1 1#1)

/-- Rule `bv-smulo-elim`. -/
def bvSmuloElimRule (a b c : Term) : Option Term :=
  if bvSmuloElim Γ a b = some c then some (bop .eq (bop .bvsmulo a b) c) else none

/-! ## `bv-umulo-elim` -/

/-- `$bv_umulo_elim_rec`, with `k` indices to go to the width. -/
def bvUmuloElimRec (a b res : Term) : Term → Nat → Nat → Option Term
  | _, _, 0 => some res
  | uppc, i, k + 1 =>
    -- `ia` is `n - 1 - i`
    let ia := k
    (mkNary Γ .bvor (mkBitOf ia a) [uppc]).bind fun uppcn =>
    (mkNary Γ .bvand (mkBitOf i b) [uppc]).bind fun conj =>
    (bvUmuloElimRec a b res uppcn (i + 1) k).map (bop .bvor conj)

/-- `$bv_umulo_elim`.  It does not end for the width zero. -/
def bvUmuloElim (a b : Term) : Option Term :=
  (bvBitwidth Γ a).bind fun w =>
  match w with
  | 0 => none
  | 1 => some (.bool false)
  | w + 2 =>
    let uppc := mkBitOf (w + 1) a
    (mkNary Γ .concat (.bin 1 0#1) [a]).bind fun za =>
    (mkNary Γ .concat (.bin 1 0#1) [b]).bind fun zb =>
    (mkNary Γ .bvmul za [zb]).bind fun mul =>
    (mkNary Γ .bvor (mkBitOf (w + 2) mul) []).bind fun res0 =>
    (bvUmuloElimRec Γ a b res0 uppc 1 (w + 1)).map fun res => bop .eq res (.bin 1 1#1)

/-- Rule `bv-umulo-elim`. -/
def bvUmuloElimRule (a b c : Term) : Option Term :=
  if bvUmuloElim Γ a b = some c then some (bop .eq (bop .bvumulo a b) c) else none

/-! ## `bv-bitwise-slicing` -/

def bvGetFirstConstChild : Term → Option Term
  | .app (.app _ a) b => if isBin a then some a else bvGetFirstConstChild b
  | _ => none

def bvMkBitwiseSlicingRec (f : Sym) (c a : Term) : Term → Term → Int → Int → Option Term
  | bs, bn, start, stop =>
    if stop = -1 then
      (mkNary Γ f (mkExtract start 0 c) [mkExtract start 0 a]).map fun p =>
        bop .concat p (.bin 0 0#0)
    else
      match bs with
      | .app (.app (.sym .fromBools) b) bs =>
        let em1 := stop + -1
        let ep1 := stop + 1
        if b = bn then bvMkBitwiseSlicingRec f c a bs b start em1
        else
          (mkNary Γ f (mkExtract start ep1 c) [mkExtract start ep1 a]).bind fun p =>
            (bvMkBitwiseSlicingRec f c a bs b stop em1).map (bop .concat p)
      | _ => none

def bvIsBitwiseSlicingOp (f : Sym) : Bool := f = .bvand || f = .bvor || f = .bvxor

def listErase (s : Sym) (a x : Term) : Option Term :=
  (nilFor Γ s a).bind fun nil => eoListErase (.sym s) nil a x

def bvMkBitwiseSlicing : Term → Option Term
  | .app (.app (.sym f) a1) a2 =>
    (bvGetFirstConstChild (bop f a1 a2)).bind fun c =>
    eoRequires (bvIsBitwiseSlicingOp f) <|
    match c with
    | .bin w v =>
      let wm1 : Int := w - 1
      -- remove the constant and recollect
      ((listErase Γ f (bop f a1 a2) c).bind (listSingletonElim Γ f)).bind fun a =>
      ((bvMkBitblastStepConst c).bind bvBitblastRev).bind fun bs =>
      (bvBitSet (.bin w v) wm1).bind fun bn =>
      (bvMkBitwiseSlicingRec Γ f c a bs (.bool bn) wm1 wm1).bind (listSingletonElim Γ .concat)
    | _ => none
  | _ => none

def bvBitwiseSlicing (a b : Term) : Option Term :=
  if bvMkBitwiseSlicing Γ a = some b then some (bop .eq a b) else none

/-! ## `bv_poly_norm_eq` -/

/-- The side condition on a constant: `(eo::zmod (eo::to_z c) 2)` is `1`. -/
def isOddConst (c : Term) : Bool := (eoToZ c).any fun z => z % 2 = 1

/-- Rule `bv_poly_norm_eq`, with its premise and its argument. -/
def bvPolyNormEq (prem arg : Term) : Option Term :=
  match prem, arg with
  | .app (.app (.sym .eq) (.app (.app (.sym .bvmul) cx)
        (.app (.app (.sym .bvmul) (.app (.app (.sym .bvsub) xb1) xb2)) one)))
      (.app (.app (.sym .bvmul) cy)
        (.app (.app (.sym .bvmul) (.app (.app (.sym .bvsub) yb1) yb2)) one')),
    .app (.app (.sym .eq) (.app (.app (.sym .eq) xa1) xa2)) (.app (.app (.sym .eq) ya1) ya2) =>
      if one' = one ∧ xa1 = xb1 ∧ xa2 = xb2 ∧ ya1 = yb1 ∧ ya2 = yb2 ∧ eoToZ one = some 1 ∧
          isOddConst cx = true ∧ isOddConst cy = true then
        some (bop .eq (bop .eq xb1 xb2) (bop .eq yb1 yb2))
      else none
  | _, _ => none

end EthosCpc
