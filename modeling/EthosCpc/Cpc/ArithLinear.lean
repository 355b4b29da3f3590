import EthosCpc.Semantics.Arith

/-!
# Linear arithmetic rules

The rules `arith_sum_ub`, `arith_mult_pos`, `arith_mult_neg`,
`arith_trichotomy`, `int_tight_ub` and `int_tight_lb` of `rules/Arith.eo`.

The programs match a relation `(r a b)` with a pattern variable `r`.
`TypeChecker::match` binds it to any term, so the definitions below take
the head of a binary application as it comes and only the programs with
explicit relation symbols restrict it.
-/

namespace EthosCpc

open Term (bop uop)

/-! ## `arith_sum_ub` -/

def arithRelSum (r1 r2 a b : Term) : Option Term :=
  match r1, r2 with
  | .sym .lt, .sym .lt => some (bop .lt a b)
  | .sym .lt, .sym .eq => some (bop .lt a b)
  | .sym .lt, .sym .leq => some (bop .lt a b)
  | .sym .leq, .sym .lt => some (bop .lt a b)
  | .sym .leq, .sym .eq => some (bop .leq a b)
  | .sym .leq, .sym .leq => some (bop .leq a b)
  | .sym .eq, .sym .lt => some (bop .lt a b)
  | .sym .eq, .sym .eq => some (bop .leq a b)
  | .sym .eq, .sym .leq => some (bop .leq a b)
  | _, _ => none

def mkArithSumUbRec : Term → Term → Option Term
  | .bool true, acc => some acc
  | .app (.app (.sym .and) (.app (.app r1 a1) b1)) tail, .app (.app r2 a2) b2 =>
    (arithRelSum r1 r2 (bop .plus a1 a2) (bop .plus b1 b2)).bind fun acc =>
      mkArithSumUbRec tail acc
  | _, _ => none

def mkArithSumUb (Γ : Nat → Ty) : Term → Option Term
  | .app (.app (.sym .and) (.app (.app r a) b)) tail =>
    (eoListRev (.sym .and) (.bool true) (bop .and (.app (.app r a) b) tail)).bind fun F =>
    ((typeof Γ a).bind arithMkZero).bind fun zero => mkArithSumUbRec F (bop .eq zero zero)
  | _ => none

def arithSumUb (Γ : Nat → Ty) (Fs : List Term) : Option Term := mkArithSumUb Γ (mkAnd Fs)

/-! ## `arith_mult_pos` and `arith_mult_neg` -/

def mkArithMultPos (Γ : Nat → Ty) (m : Term) : Term → Option Term
  | .app (.app r a) b =>
    (mkNary Γ .times m [a]).bind fun ma => (mkNary Γ .times m [b]).map fun mb =>
      .app (.app r ma) mb
  | _ => none

def arithMultPos (Γ : Nat → Ty) (m F : Term) : Option Term :=
  ((typeof Γ m).bind arithMkZero).bind fun zero => (mkArithMultPos Γ m F).map fun G =>
    bop .imp (mkAnd [bop .gt m zero, F]) G

def arithRelInv (r a b : Term) : Option Term :=
  match r with
  | .sym .eq => some (bop .eq a b)
  | .sym .lt => some (bop .gt a b)
  | .sym .leq => some (bop .geq a b)
  | .sym .gt => some (bop .lt a b)
  | .sym .geq => some (bop .leq a b)
  | _ => none

def mkArithMultNeg (Γ : Nat → Ty) (m : Term) : Term → Option Term
  | .app (.app r a) b =>
    (mkNary Γ .times m [a]).bind fun ma => (mkNary Γ .times m [b]).bind fun mb =>
      arithRelInv r ma mb
  | _ => none

def arithMultNeg (Γ : Nat → Ty) (m F : Term) : Option Term :=
  ((typeof Γ m).bind arithMkZero).bind fun zero => (mkArithMultNeg Γ m F).map fun G =>
    bop .imp (mkAnd [bop .lt m zero, F]) G

/-! ## `arith_trichotomy` -/

def arithRelTrichotomy (r1 r2 a b : Term) : Option Term :=
  match r1, r2 with
  | .sym .eq, .sym .lt => some (bop .gt a b)
  | .sym .eq, .sym .gt => some (bop .lt a b)
  | .sym .gt, .sym .eq => some (bop .lt a b)
  | .sym .lt, .sym .eq => some (bop .gt a b)
  | .sym .gt, .sym .lt => some (bop .eq a b)
  | .sym .lt, .sym .gt => some (bop .eq a b)
  | _, _ => none

def arithRelNeg (r a b : Term) : Option Term :=
  match r with
  | .sym .lt => some (bop .geq a b)
  | .sym .leq => some (bop .gt a b)
  | .sym .gt => some (bop .leq a b)
  | .sym .geq => some (bop .lt a b)
  | _ => none

def arithNormalizeLit : Term → Option Term
  | .app (.sym .not) (.app (.sym .not) (.app (.app r a) b)) => some (.app (.app r a) b)
  | .app (.sym .not) (.app (.app r a) b) => arithRelNeg r a b
  | .app (.app r a) b => some (.app (.app r a) b)
  | _ => none

def mkArithTrichotomy : Term → Term → Option Term
  | .app (.app r1 a) b, .app (.app r2 a') b' =>
    if a' = a ∧ b' = b then arithRelTrichotomy r1 r2 a b else none
  | _, _ => none

def arithTrichotomy (F1 F2 : Term) : Option Term :=
  (arithNormalizeLit (uop .not F1)).bind fun G1 =>
  (arithNormalizeLit (uop .not F2)).bind fun G2 => mkArithTrichotomy G1 G2

/-! ## `int_tight_ub` and `int_tight_lb` -/

def greatestIntLt (c : Term) : Option Term :=
  (eoToZ c).bind fun ci => (eoToQ c).map fun q =>
    if q = (ci : Rat) then .num (-1 + ci) else .num ci

def intTightUb : Term → Option Term
  | .app (.app (.sym .lt) s) t => (greatestIntLt t).map (bop .leq s)
  | _ => none

def leastIntGt (c : Term) : Option Term := (eoToZ c).map fun ci => .num (1 + ci)

def intTightLb : Term → Option Term
  | .app (.app (.sym .gt) s) t => (leastIntGt t).map (bop .geq s)
  | _ => none

end EthosCpc
