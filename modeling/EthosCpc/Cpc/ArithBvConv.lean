import EthosCpc.Cpc.AciNorm

/-!
# Conversions between integers and bit-vectors

The rules `ubv-to-int-elim` and `int-to-bv-elim` of `rules/ArithBvConv.eo`.
The programs of the two rules recurse over the bits of a width, which is a
numeral; the recursion is on the number of bits that are left.
-/

namespace EthosCpc

open Term (bop uop)

variable (Γ : Nat → Ty)

/-- The bit `i` of `b` as a formula, `(= (extract i i b) #b1)`. -/
def bitIsOne (b : Term) (i : Int) : Term :=
  bop .eq (.app (bop .extract (.num i) (.num i)) b) (.bin 1 1#1)

/-- `$abconv_ubv_to_int_elim` with `w - i` bits left. -/
def abconvUbvToIntElim (b : Term) : Nat → Int → Int → Term
  | 0, _, _ => .num 0
  | k + 1, i, p =>
    bop .plus (.app (bop .ite (bitIsOne b i) (.num p)) (.num 0))
      (abconvUbvToIntElim b k (i + 1) (p * 2))

def ubvToIntElim : Term → Option Term
  | .app (.app (.sym .eq) (.app (.sym .ubvToInt) b)) m =>
    (typeof Γ b).bind fun T => T.width.bind fun w =>
      eoRequires (decide (listSingletonElim Γ .plus (abconvUbvToIntElim b w 0 1) = some m))
        (some (bop .eq (uop .ubvToInt b) m))
  | _ => none

def abconvIntToBvElim (n : Term) : Nat → Int → Term
  | 0, _ => .bin 0 0#0
  | w + 1, p =>
    bop .concat (.app (bop .ite (bop .geq (bop .modTotal n (.num p)) (.num (p / 2)))
        (.bin 1 1#1)) (.bin 1 0#1))
      (abconvIntToBvElim n w (p / 2))

/-- Rule `int-to-bv-elim`; for a negative width the recursion does not end. -/
def intToBvElim : Term → Option Term
  | .app (.app (.sym .eq) (.app (.app (.sym .intToBv) (.num w)) n)) b =>
    if 0 ≤ w then
      eoRequires (decide (listSingletonElim Γ .concat
          (abconvIntToBvElim n w.toNat (arithEvalIntPow2Num w)) = some b))
        (some (bop .eq (bop .intToBv (.num w) n) b))
    else none
  | _ => none

end EthosCpc
