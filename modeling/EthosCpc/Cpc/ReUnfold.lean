import EthosCpc.Cpc.Strings

/-!
# Unfolding of regular expressions

The rules `re_unfold_pos`, `re_unfold_neg`, `re_unfold_neg_concat_fixed`,
`re_inter` and `re_concat` of `rules/Strings.eo`, and the rewrites `re-loop-elim`, `str-in-re-sigma`,
`str-in-re-sigma-star` and `str-in-re-concat-star-char`, with the programs
of `programs/Strings.eo` they use.

The arguments of the skolem `@re_unfold_pos_component` are opaque, so an
application of it is a constant of its own: the rule takes the constants
`k 0`, `k 1`, … that stand for the components of the expression at hand.

The conclusion of `re_unfold_neg` is quantified over an integer.  It is a
`QForm`, in which the body of a quantifier is a function of the term that
replaces the bound variable.
-/

namespace EthosCpc

open Term (bop uop)

variable (Γ : Nat → Ty)

/-! ## Fixed length -/

/-- `eo::len` of a string term. -/
def eoStrLen : Term → Option Int
  | .str s => some s.length
  | _ => none

def strFixedLenRe : Term → Option Int
  | .app (.app (.sym .reConcat) r) r1 =>
    (strFixedLenRe r).bind fun n => (strFixedLenRe r1).map fun m => n + m
  | .sym .reAllchar => some 1
  | .app (.app (.sym .reRange) _) _ => some 1
  | .app (.sym .strToRe) s1 => eoStrLen s1
  | .app (.app (.sym .reUnion) r) r1 =>
    (strFixedLenRe r).bind fun n =>
      if r1 = .sym .reNone then some n
      else (strFixedLenRe r1).bind fun m => eoRequires (decide (m = n)) (some n)
  | .app (.app (.sym .reInter) r) r1 =>
    (strFixedLenRe r).bind fun n =>
      if r1 = .sym .reAll then some n
      else (strFixedLenRe r1).bind fun m => eoRequires (decide (m = n)) (some n)
  | _ => none

/-! ## Parts of a string -/

/-- `(str.substr s n m)`. -/
abbrev mkSubstr (s n m : Term) : Term := .app (bop .strSubstr s n) m

def strPrefix (s n : Term) : Term := mkSubstr s (.num 0) n

def strSuffixRem (s n : Term) : Term := mkSubstr s n (bop .minus (uop .strLen s) n)

def strPrefixRem (s n : Term) : Term := mkSubstr s (.num 0) (bop .minus (uop .strLen s) n)

def strSuffix (s n : Term) : Term := mkSubstr s (bop .minus (uop .strLen s) n) n

/-! ## Positive memberships -/

/-- `$re_unfold_pos_concat_rec`: the components from number `i` on. -/
def reUnfoldPosConcatRec (k : Nat → Nat) : Term → Nat → Option (Term × Term)
  | .app (.app (.sym .reConcat) r1) r2, i =>
    (reUnfoldPosConcatRec k r2 (i + 1)).map fun res =>
      match r1 with
      | .app (.sym .strToRe) s => (bop .strConcat s res.1, res.2)
      | r1 =>
        (bop .strConcat (.const (k i)) res.1, bop .and (bop .strInRe (.const (k i)) r1) res.2)
  | r, _ => if r = reEmpty then some (.str [], .bool true) else none

def reUnfoldPosConcat (k : Nat → Nat) (r : Term) : Option (Term × Term) :=
  reUnfoldPosConcatRec k r 0

def mkReUnfoldPosStar (t r : Term) : Term × Term → Option Term
  | (.app (.app (.sym .strConcat) k1) (.app (.app (.sym .strConcat) k2)
      (.app (.app (.sym .strConcat) k3) (.str []))), M) =>
      some (bop .or (bop .eq t (.str [])) (bop .or (bop .strInRe t r) (bop .or
            (mkAnd [bop .and (bop .eq t
              (bop .strConcat k1 (bop .strConcat k2 (bop .strConcat k3 (.str []))))) M,
              uop .not (bop .eq k1 (.str [])), uop .not (bop .eq k3 (.str []))])
            (.bool false))))
  | _ => none

/-- The concatenation whose components an unfolding uses. -/
def unfoldedConcat : Term → Term
  | .app (.sym .reStar) r1 =>
    bop .reConcat r1 (bop .reConcat (uop .reStar r1) (bop .reConcat r1 reEmpty))
  | r => r

/-- `$mk_re_unfold_pos`, the conclusion of rule `re_unfold_pos`. -/
def mkReUnfoldPos (k : Nat → Nat) (t r : Term) : Option Term :=
  match r with
  | .app (.sym .reStar) r1 =>
    (reUnfoldPosConcat k (unfoldedConcat r)).bind (mkReUnfoldPosStar t r1)
  | .app (.app (.sym .reConcat) _) _ =>
    (reUnfoldPosConcat k (unfoldedConcat r)).map fun res =>
      if res.2 = .bool true then bop .eq t res.1 else bop .and (bop .eq t res.1) res.2
  | _ => none

/-! ## Negative memberships -/

/-- `eo::list_singleton_elim` of `re.++`. -/
def reSingletonElim (r : Term) : Option Term := eoListSingletonElim (.sym .reConcat) reEmpty r

/-- `(or (not F) (not G))`. -/
def orNot (F G : Term) : Term := bop .or (uop .not F) (bop .or (uop .not G) (.bool false))

def mkReUnfoldNegConcatFixed (s : Term) (rev : Bool) : Term → Option Term
  | .app (.app (.sym .reConcat) r1) r2 =>
    (strFixedLenRe r1).bind fun n =>
      if rev then
        (strReRev rev r2).bind fun p => (reSingletonElim p).map fun q =>
          orNot (bop .strInRe (strSuffix s (.num n)) r1)
            (bop .strInRe (strPrefix s (bop .minus (uop .strLen s) (.num n))) q)
      else
        (reSingletonElim r2).map fun q =>
          orNot (bop .strInRe (strPrefix s (.num n)) r1) (bop .strInRe (strSuffixRem s (.num n)) q)
  | _ => none

def reUnfoldNegConcatFixed (s r : Term) (rev : Bool) : Option Term :=
  (strReRev rev r).bind (mkReUnfoldNegConcatFixed s rev)

/-- Formulas with quantifiers over the integers. -/
inductive QForm
  | ground (F : Term)
  | and (F : Term) (Q : QForm)
  | forallInt (body : Term → Term)

/-- `(or F1 F2 (not F3) (not F4))`. -/
def orNots (F1 F2 F3 F4 : Term) : Term := bop .or F1 (bop .or F2 (orNot F3 F4))

/-- `$mk_re_unfold_neg`, the conclusion of rule `re_unfold_neg`. -/
def mkReUnfoldNeg (t : Term) : Term → Option QForm
  | .app (.sym .reStar) r1 =>
    some (.and (uop .not (bop .eq t (.str []))) (.forallInt fun i =>
        orNots (bop .leq i (.num 0)) (bop .lt (uop .strLen t) i) (bop .strInRe (strPrefix t i) r1)
          (bop .strInRe (strSuffixRem t i) (uop .reStar r1))))
  | .app (.app (.sym .reConcat) r1) r2 =>
    (reSingletonElim r2).map fun q =>
      .forallInt fun i =>
        orNots (bop .lt i (.num 0)) (bop .lt (uop .strLen t) i)
          (bop .strInRe (strPrefix t i) r1) (bop .strInRe (strSuffixRem t i) q)
  | _ => none

/-! ## Several memberships -/

/-- Rule `re_inter`, on its premises. -/
def reInterRule : List Term → Option Term
  | [.app (.app (.sym .strInRe) x) r1, .app (.app (.sym .strInRe) y) r2] =>
    if y = x then some (bop .strInRe x (bop .reInter r1 (bop .reInter r2 (.sym .reAll))))
    else none
  | _ => none

def mkReConcat : Term → Term → Term → Option Term
  | .app (.app (.sym .and) (.app (.app (.sym .strInRe) s) r)) Es, s1, r1 =>
    mkReConcat Es (bop .strConcat s s1) (bop .reConcat r r1)
  | .bool true, s1, r1 => some (bop .strInRe s1 r1)
  | _, _, _ => none

/-- Rule `re_concat`, on its premises. -/
def reConcatRule (Fs : List Term) : Option Term :=
  (eoListRev (.sym .and) (.bool true) (mkAnd Fs)).bind fun E => mkReConcat E (.str []) reEmpty

/-! ## Rewrites -/

def strMkReLoopElimRec (r : Term) : Nat → Nat → Term → Option Term
  | 0, 0, rr => (reSingletonElim rr).map fun q => bop .reUnion q (.sym .reNone)
  | 0, d + 1, rr =>
    (reSingletonElim rr).bind fun q =>
      (strMkReLoopElimRec r 0 d (bop .reConcat r rr)).map fun u => bop .reUnion q u
  | n + 1, d, rr => strMkReLoopElimRec r n d (bop .reConcat r rr)

/-- `$str_mk_re_loop_elim`.  On a negative number the recursion does not end. -/
def strMkReLoopElim (n d : Int) (r : Term) : Option Term :=
  if 0 ≤ n ∧ 0 ≤ d then
    (strMkReLoopElimRec r n.toNat d.toNat reEmpty).bind
      (eoListSingletonElim (.sym .reUnion) (.sym .reNone))
  else none

def reLoopElim (l u r1 : Term) : Option Term :=
  match l, u with
  | .num l, .num u =>
    eoRequires (decide (¬ -l + u < 0)) <| (strMkReLoopElim l (-l + u) r1).map fun r2 =>
        bop .eq (.app (bop .reLoop (.num l) (.num u)) r1) r2
  | _, _ => none

def strMkStrInReConcatStarChar : Term → Term → Option Term
  | .app (.app (.sym .strConcat) s1) s2, r =>
    (strMkStrInReConcatStarChar s2 r).map fun F => bop .and (bop .strInRe s1 r) F
  | .str [], _ => some (.bool true)
  | _, _ => none

def strInReConcatStarChar (s1 s2 r : Term) : Option Term :=
  (strFixedLenRe r).bind fun n => eoRequires (decide (n = 1)) <|
    (strMkStrInReConcatStarChar (bop .strConcat s1 s2) (uop .reStar r)).map fun b =>
      bop .eq (bop .strInRe (bop .strConcat s1 s2) (uop .reStar r)) b

def strMkStrInReSigmaRec (s : Term) : Term → Int → Bool → Option Term
  | .app (.app (.sym .reConcat) (.sym .reAllchar)) r, n, b => strMkStrInReSigmaRec s r (n + 1) b
  | .app (.app (.sym .reConcat) (.app (.sym .reStar) (.sym .reAllchar))) r, n, _ =>
    strMkStrInReSigmaRec s r n false
  | .app (.sym .strToRe) (.str []), n, b =>
    some (if b then bop .eq (uop .strLen s) (.num n) else bop .geq (uop .strLen s) (.num n))
  | _, _, _ => none

def strInReSigma (s r : Term) : Option Term :=
  (strMkStrInReSigmaRec s r 0 true).map fun b => bop .eq (bop .strInRe s r) b

def strMkStrInReSigmaStarRec (s : Term) : Term → Int → Option Term
  | .app (.app (.sym .reConcat) (.sym .reAllchar)) r, n => strMkStrInReSigmaStarRec s r (n + 1)
  | .app (.sym .strToRe) (.str []), n =>
    eoRequires (decide (n ≠ 0)) <| some (bop .eq (bop .mod (uop .strLen s) (.num n)) (.num 0))
  | _, _ => none

def strInReSigmaStar (s r : Term) : Option Term :=
  (strMkStrInReSigmaStarRec s r 0).map fun b => bop .eq (bop .strInRe s (uop .reStar r)) b

end EthosCpc
