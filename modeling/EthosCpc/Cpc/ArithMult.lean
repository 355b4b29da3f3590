import EthosCpc.Semantics.Arith

/-!
# Sign and magnitude rules for products

The rules `arith_mult_sign`, `arith_mult_abs_comparison` and
`arith_mult_tangent` of `rules/Arith.eo`.

`arith_mult_sign` walks a conjunction of literals and a monomial in
lockstep.  Each literal settles the sign of one factor by a comparison with
zero, and the program accepts a literal `z` for zero when `eo::to_z`
rounds it to `0`.  Its last case repeats itself on an enclosing
conjunction, so the program need not terminate, and the definition below
takes fuel.
-/

namespace EthosCpc

open Term (bop uop)

/-! ## `arith_mult_sign` -/

def stripEvenExponent (t : Term) : Term → Term
  | .app (.app (.sym .times) t1) (.app (.app (.sym .times) t2) m) =>
    if t1 = t ∧ t2 = t then stripEvenExponent t m
    else bop .times t1 (bop .times t2 m)
  | m => m

/-- The pattern `(and (not (= t z)) F)` against `(* t t m)`. -/
def matchNeq : Term → Term → Option (Term × Term × Term × Term)
  | .app (.app (.sym .and) (.app (.sym .not) (.app (.app (.sym .eq) t) z))) F,
      .app (.app (.sym .times) t1) (.app (.app (.sym .times) t2) m) =>
      if t1 = t ∧ t2 = t then some (t, z, F, m) else none
  | _, _ => none

/-- The pattern `(and (r t z) F)` against `(* t m)`. -/
def matchRel (r : Sym) : Term → Term → Option (Term × Term × Term × Term)
  | .app (.app (.sym .and) (.app (.app (.sym r') t) z)) F, .app (.app (.sym .times) t1) m =>
    if r' = r ∧ t1 = t then some (t, z, F, m) else none
  | _, _ => none

def mkArithMultSignSgn : Nat → Bool → Term → Term → Option Bool
  | 0, _, _, _ => none
  | n + 1, sgn, F, m =>
    match matchNeq F m with
    | some (t, z, F', m') =>
      eoRequires (eoToZ z = some 0) (mkArithMultSignSgn n sgn F' (stripEvenExponent t m'))
    | none =>
    match matchRel .gt F m with
    | some (t, z, F', m') =>
      eoRequires (eoToZ z = some 0) (mkArithMultSignSgn n sgn F' (stripEvenExponent t m'))
    | none =>
    match matchRel .lt F m with
    | some (t, z, F', m') =>
      eoRequires (eoToZ z = some 0) (mkArithMultSignSgn n (!sgn) F' (stripEvenExponent t m'))
    | none =>
    if F = .bool true then eoRequires (eoToQ m = some 1) (some sgn)
    else mkArithMultSignSgn n sgn (bop .and F (.bool true)) m

/-- Rule `arith_mult_sign`, with the fuel for its program. -/
def arithMultSign (n : Nat) (Γ : Nat → Ty) (F m : Term) : Option Term :=
  (mkArithMultSignSgn n true F m).bind fun sgn =>
  ((typeof Γ m).bind arithMkZero).map fun zero =>
    bop .imp F (bop (if sgn then .gt else .lt) m zero)

/-! ## `arith_mult_abs_comparison` -/

/-- `(eo::list_concat * a (* t))`. -/
def appendFactor (Γ : Nat → Ty) (a t : Term) : Option Term :=
  (mkNary Γ .times t []).bind fun b =>
  (nilFor Γ .times a).bind fun nil => eoListConcat (.sym .times) nil a b

/-- The first two patterns of `$mk_arith_mult_abs_comparison_rec`: a premise
against the conclusion built so far.  Returns the relation, the two
products and the two factors to append. -/
def matchAbs : Term → Term → Option (Term × Term × Term × Term × Term)
  | .app (.app r (.app (.sym .abs) t)) (.app (.sym .abs) u), .app (.app r' a) b =>
    if r' = r then some (r, a, b, t, u) else none
  | .app (.app (.sym .and) (.app (.app (.sym .eq) (.app (.sym .abs) t)) (.app (.sym .abs) u)))
        (.app (.app (.sym .and) (.app (.sym .not) (.app (.app (.sym .eq) t') z))) (.bool true)),
      .app (.app (.sym .gt) a) b =>
      if t' = t then eoRequires (eoToZ z = some 0) (some (.sym .gt, a, b, t, u)) else none
  | _, _ => none

def mkArithMultAbsComparisonRec (Γ : Nat → Ty) : Term → Term → Option Term
  | .app (.app (.sym .and) H) B, acc =>
    (matchAbs H acc).bind fun (r, a, b, t, u) =>
      (appendFactor Γ a t).bind fun a' => (appendFactor Γ b u).bind fun b' =>
        mkArithMultAbsComparisonRec Γ B (.app (.app r a') b')
  | .bool true, .app (.app r a) b => some (.app (.app r (uop .abs a)) (uop .abs b))
  | _, _ => none

def mkArithMultAbsComparison (Γ : Nat → Ty) : Term → Option Term
  | .app (.app (.sym .and) (.app (.app (.sym r) (.app (.sym .abs) t)) (.app (.sym .abs) u))) B =>
    if r = .gt ∨ r = .eq then
      (mkNary Γ .times t []).bind fun a => (mkNary Γ .times u []).bind fun b =>
        mkArithMultAbsComparisonRec Γ B (bop r a b)
    else none
  | _ => none

def arithMultAbsComparison (Γ : Nat → Ty) (Fs : List Term) : Option Term :=
  mkArithMultAbsComparison Γ (mkAnd Fs)

/-! ## `arith_mult_tangent` -/

def arithMultTangent (Γ : Nat → Ty) (x y a b s : Term) : Option Term :=
  (mkNary Γ .times b [x]).bind fun bx => (mkNary Γ .times a [y]).bind fun ay =>
  (mkNary Γ .plus bx [ay]).bind fun sum => (mkNary Γ .times a [b]).bind fun ab =>
  (mkNary Γ .times x [y]).bind fun xy =>
  (eoIte s Sym.geq Sym.leq).bind fun r1 => (eoIte s Sym.leq Sym.geq).map fun r2 =>
    bop .eq (bop r1 xy (bop .minus sum ab)) (prependNAryChildren (.sym .or) (.bool false)
        [mkAnd [bop .leq x a, bop r2 y b], mkAnd [bop .geq x a, bop r1 y b]])

/-! ## The literals that stand for zero -/

/-- The right-hand sides of the literals `(< t z)` and `(not (= t z))` in a
conjunction. -/
def cmpLits : Term → List Term
  | .app (.app (.sym .and) A) B => cmpLits A ++ cmpLits B
  | .app (.sym .not) (.app (.app (.sym .eq) _) z) => [z]
  | .app (.app (.sym .lt) _) z => [z]
  | _ => []

end EthosCpc
