import EthosCpc.Cpc.Strings

/-!
# Distinct terms and overlaps

`$are_distinct_terms` of `programs/DistinctValues.eo`, at the types of this
signature that have no datatype or set in them, and the overlap utilities
of `programs/Strings.eo` that rest on it.

Two lists are compatible when one can be a prefix of the other.  The answer
is negative only after a pair of components was reported distinct.
-/

namespace EthosCpc

open Term (bop uop)

variable (Γ : Nat → Ty)

/-! ## Distinct terms -/

/-- The singleton cases of `$seq_distinct_terms`: a unit becomes a list with one element. -/
def seqUnitIntro : Term → Option Term
  | .app (.sym .seqUnit) e => mkNary Γ .strConcat (uop .seqUnit e) []
  | t => some t

/-- `$seq_distinct_terms`, with a bound on the number of calls.  `distinct` decides about the
elements. -/
def seqDistinctTermsRec (distinct : Term → Term → Option Bool) : Nat → Term → Term → Option Bool
  | 0, _, _ => none
  | k + 1, t, s =>
    (seqUnitIntro Γ t).bind fun t => (seqUnitIntro Γ s).bind fun s =>
      match t, s with
      | .app (.app (.sym .strConcat) (.app (.sym .seqUnit) e1)) ts,
        .app (.app (.sym .strConcat) (.app (.sym .seqUnit) e2)) ss =>
          (distinct e1 e2).bind fun b =>
            if b then some true else seqDistinctTermsRec distinct k ts ss
      | t, s => some (decide (t ≠ s))

/-- `$are_distinct_terms_type`.  No term of the remaining types has a constructor at its head. -/
def areDistinctTermsType (distinct : Term → Term → Option Bool) (t s : Term) :
    Ty → Option Bool
  | .int => some (isZ t && isZ s)
  | .real => some (isQ t && isQ s)
  | .seq .char => some (isStr t && isStr s)
  | .bitvec _ => some (isBin t && isBin s)
  | .bool => some (isBool t && isBool s)
  | .seq _ => seqDistinctTermsRec Γ distinct (t.size + s.size) t s
  | _ => some false

/-- `$are_distinct_terms`, with a bound on the nesting of sequences. -/
def areDistinctTermsRec : Nat → Term → Term → Option Bool
  | 0, _, _ => none
  | k + 1, t, s =>
    if t = s then some false
    else (typeof Γ t).bind (areDistinctTermsType Γ (areDistinctTermsRec k) t s)

def areDistinctTerms (t s : Term) : Option Bool := areDistinctTermsRec Γ (t.size + s.size) t s

/-! ## Overlaps -/

def strIsEmpty : Term → Bool
  | .sym (.seqEmpty _) => true
  | .str [] => true
  | _ => false

def strIsCompatible : Term → Term → Option Bool
  | .app (.app (.sym .strConcat) c1) xs1, .app (.app (.sym .strConcat) c2) xs2 =>
    if c1 = c2 then strIsCompatible xs1 xs2
    else (areDistinctTerms Γ c1 c2).bind fun b => eoRequires b (some false)
  | c1, c2 => some (strIsEmpty c1 || strIsEmpty c2)

def strOverlapRec : Term → Term → Option Nat
  | .app (.app (.sym .strConcat) s) s1, t =>
    (strIsCompatible Γ (bop .strConcat s s1) t).bind fun b =>
      if b then some 0 else (strOverlapRec s1 t).map fun n => 1 + n
  | _, _ => some 0

def strOverlap (s t : Term) (rev : Bool) : Option Nat :=
  (strToFlatForm Γ s rev).bind fun u => (strToFlatForm Γ t rev).bind (strOverlapRec Γ u)

end EthosCpc
