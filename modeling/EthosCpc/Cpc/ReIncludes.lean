import EthosCpc.Cpc.Strings

/-!
# Inclusion of regular expressions

The programs of `programs/Strings.eo` behind the rules `re-inter-inclusion`
and `re-union-inclusion`.  `$str_re_includes` and its helpers call each
other, so all of them count the calls that are still allowed; a program that
has none left is stuck.
-/

namespace EthosCpc

open Term (bop uop)

variable (Γ : Nat → Ty)

def strMaybeGetStarBody : Term → Term
  | .app (.sym .reStar) r => r
  | r => r

def strReIncludesIsRec : Term → Term → Bool
  | _, .app (.app (.sym .reInter) _) _ => false
  | .app (.app (.sym .reUnion) _) _, _ => false
  | .app (.sym .reStar) _, _ => false
  | .app (.app (.sym .reConcat) _) _, _ => true
  | _, .app (.app (.sym .reConcat) _) _ => true
  | _, _ => false

def reIsUnboundWildcard : Term → Bool
  | .app (.app (.sym .reConcat) (.app (.sym .reStar) (.sym .reAllchar))) _ => true
  | .app (.app (.sym .reConcat) (.sym .reAllchar)) r2 => reIsUnboundWildcard r2
  | _ => false

/-- `(eo::ite c true e)`. -/
def orElse (c e : Option Bool) : Option Bool := c.bind fun b => if b then some true else e

/-- `(eo::ite c t false)`. -/
def andThen (c t : Option Bool) : Option Bool := c.bind fun b => if b then t else some false

/-- The inclusion of ranges in `$str_re_includes`. -/
def reRangeIncludes (s1 s2 s3 s4 : Term) : Option Bool :=
  (eoToZ s1).bind fun z1 => (eoToZ s2).bind fun z2 => (eoToZ s3).bind fun z3 =>
    (eoToZ s4).bind fun z4 =>
      eoRequires (decide (¬ z1 < 0)) (eoRequires (decide (¬ z2 < 0))
        (eoRequires (decide (¬ z3 < 0)) (eoRequires (decide (¬ z4 < 0))
          (some (compareGeq z2 z3 && compareGeq z3 z1 && compareGeq z2 z4 && compareGeq z4 z1)))))

mutual

def strReIncludes : Nat → Term → Term → Option Bool
  | 0, _, _ => none
  | k + 1, r1, r3 =>
    if r1 = r3 then some true
    else
      match r1, r3 with
      | r1, .app (.sym .strToRe) s1 => strEvalStrInRe s1 r1
      | .app (.sym .strToRe) _, _ => some false
      | .app (.app (.sym .reRange) s1) s2, .app (.app (.sym .reRange) s3) s4 =>
        reRangeIncludes s1 s2 s3 s4
      | r1, r3 =>
        orElse (strReIncludesLhsUnion k r1 r3) (orElse (strReIncludesRhsInter k r1 r3)
            (orElse (strReIncludesLhsStar k r1 r3) (if strReIncludesIsRec r1 r3 then
                (reToFlatForm Γ r1 false).bind fun r1 =>
                  (reToFlatForm Γ r3 false).bind fun r3 => strReIncludesRec k r1 r3
              else some false)))

def strReIncludesLhsUnion : Nat → Term → Term → Option Bool
  | 0, _, _ => none
  | k + 1, .app (.app (.sym .reUnion) r1) r2, r3 =>
    orElse (strReIncludes k r1 r3) (strReIncludesLhsUnion k r2 r3)
  | _ + 1, _, _ => some false

def strReIncludesRhsInter : Nat → Term → Term → Option Bool
  | 0, _, _ => none
  | k + 1, r1, .app (.app (.sym .reInter) r3) r2 =>
    orElse (strReIncludes k r1 r3) (strReIncludesRhsInter k r1 r2)
  | _ + 1, _, _ => some false

def strReIncludesLhsStar : Nat → Term → Term → Option Bool
  | 0, _, _ => none
  | k + 1, .app (.sym .reStar) r1, r2 =>
    if r1 = .sym .reAllchar then some true
    else strReIncludes k r1 (strMaybeGetStarBody r2)
  | _ + 1, _, _ => some false

def strReIncludesRec : Nat → Term → Term → Option Bool
  | 0, _, _ => none
  | k + 1, r1, r3 =>
    if r1 = r3 then some true
    else
      match r1, r3 with
      | .app (.app (.sym .reConcat) (.app (.sym .strToRe)
          (.app (.app (.sym .strConcat) s1) s2))) r2, r3 =>
          strReIncludesRec k
            (bop .reConcat (uop .strToRe s1) (bop .reConcat (uop .strToRe s2) r2)) r3
      | .app (.app (.sym .reConcat) (.app (.sym .strToRe) (.str []))) r2, r3 =>
        strReIncludesRec k r2 r3
      | r1, .app (.app (.sym .reConcat) (.app (.sym .strToRe)
          (.app (.app (.sym .strConcat) s1) s2))) r4 =>
          strReIncludesRec k r1
            (bop .reConcat (uop .strToRe s1) (bop .reConcat (uop .strToRe s2) r4))
      | r1, .app (.app (.sym .reConcat) (.app (.sym .strToRe) (.str []))) r4 =>
        strReIncludesRec k r1 r4
      | .app (.app (.sym .reConcat) r1) r2, .app (.app (.sym .reConcat) r3) r4 =>
        -- skip both, skip the right-hand side, or skip the left-hand side
        orElse (andThen ((reFromFlatForm Γ r1 false).bind fun p =>
              (reFromFlatForm Γ r3 false).bind fun q => strReIncludes k p q)
            (strReIncludesRec k r2 r4))
          (orElse (andThen (some (reIsUnboundWildcard (bop .reConcat r1 r2)))
              (strReIncludesRec k (bop .reConcat r1 r2) r4))
            (andThen (some (decide (r1 = reSigmaStar)))
              (strReIncludesRec k r2 (bop .reConcat r3 r4))))
      | .app (.app (.sym .reConcat) r1) r2, .app (.sym .strToRe) (.str []) =>
        some (decide (r1 = reSigmaStar) && decide (r2 = reEmpty))
      | _, _ => some false

end

/-- Rule `re-inter-inclusion`, with `k` calls allowed. -/
def reInterInclusion (k : Nat) (r1 r2 : Term) : Option Term :=
  (strReIncludes Γ k r2 r1).bind fun b =>
    eoRequires b (some (bop .eq
      (bop .reInter r1 (bop .reInter (uop .reComp r2) (.sym .reAll))) (.sym .reNone)))

/-- Rule `re-union-inclusion`, with `k` calls allowed. -/
def reUnionInclusion (k : Nat) (r1 r2 : Term) : Option Term :=
  (strReIncludes Γ k r1 r2).bind fun b =>
    eoRequires b (some (bop .eq
      (bop .reUnion r1 (bop .reUnion (uop .reComp r2) (.sym .reNone))) reSigmaStar))

end EthosCpc
