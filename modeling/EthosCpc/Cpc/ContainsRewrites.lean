import EthosCpc.Cpc.Overlap

/-!
# Rewrites on containment, search and replacement

The rules `str-ctn-multiset-subset`, `str-overlap-split-ctn` and
`str-overlap-endpoints-ctn`, `-indexof` and `-replace` of
`rules/Strings.eo`.  A `@list` of terms is a list here.
-/

namespace EthosCpc

open Term (bop uop)

variable (Γ : Nat → Ty)

/-! ## Overlaps of values -/

def strValueLen : Term → Option Nat
  | .app (.app (.sym .strConcat) (.app (.sym .seqUnit) _)) ss =>
    (strValueLen ss).map fun n => 1 + n
  | .sym (.seqEmpty _) => some 0
  | .app (.sym .seqUnit) _ => some 1
  | .str s => some s.length
  | _ => none

def strHasOverlap (s t : Term) (rev : Bool) : Option Bool :=
  (strValueLen s).bind fun n => (strOverlap Γ s t rev).map fun m => decide (n > m)

/-! ## Multisets of components -/

/-- `$str_multiset_overapprox` of the list that `$str_flatten_word` yields. -/
def wordOverapprox : Str → List Term
  | [] => []
  | c :: s => .str [c] :: wordOverapprox s

def strMultisetOverapprox : Term → List Term
  | .app (.app (.sym .strConcat) s) ss => strMultisetOverapprox s ++ strMultisetOverapprox ss
  | .app (.app (.app (.sym .strSubstr) s) _) _ => strMultisetOverapprox s
  | .app (.app (.app (.sym .strReplace) s) _) r =>
    strMultisetOverapprox s ++ strMultisetOverapprox r
  | .str s => if s = [] then [] else if 1 < s.length then wordOverapprox s else [.str s]
  | s => if strIsEmpty s then [] else [s]

/-- `$are_distinct_terms_list_rec`, at the type of `t`. -/
def areDistinctTermsListRec (t : Term) : List Term → Option Bool
  | [] => some true
  | s :: xs =>
    (areDistinctTerms Γ t s).bind fun b =>
      if b then areDistinctTermsListRec t xs else some false

/-- The second and third case of `$str_is_multiset_subset_strict`. -/
def someDistinctFrom (xs : List Term) : List Term → Option Bool
  | [] => some false
  | s :: nr =>
    ((typeof Γ s).bind fun _ => areDistinctTermsListRec Γ s xs).bind fun b =>
      if b then some true else someDistinctFrom xs nr

/-- The first case of `$str_is_multiset_subset_strict`: what is left of `xs`, and the components
that were not removed from it. -/
def removeComponents : Term → List Term → List Term → List Term × List Term
  | .app (.app (.sym .strConcat) s) ss, xs, nr =>
    removeComponents ss (xs.erase s) (if xs = xs.erase s then s :: nr else nr)
  | _, xs, nr => (xs, nr)

def strIsMultisetSubsetStrict (s : Term) (xs nr : List Term) : Option Bool :=
  someDistinctFrom Γ (removeComponents s xs nr).1 (removeComponents s xs nr).2

/-! ## Conclusions of the rules -/

def strCtnMultisetSubset (t s : Term) : Option Term :=
  (strToFlatForm Γ s false).bind fun u =>
    (strIsMultisetSubsetStrict Γ u (strMultisetOverapprox t) []).bind fun b =>
      eoRequires b (some (bop .eq (bop .strContains t s) (.bool false)))

/-- `(str.++ a b c emp)`. -/
abbrev concat3 (a b c emp : Term) : Term :=
  bop .strConcat a (bop .strConcat b (bop .strConcat c emp))

/-- `:requires (($str_has_overlap s t rev) false)`. -/
def requireNoOverlap (s t : Term) (rev : Bool) (r : Option Term) : Option Term :=
  (strHasOverlap Γ s t rev).bind fun b => eoRequires (!b) r

def strOverlapSplitCtn (t c s d emp : Term) : Option Term :=
  eoRequires (strIsEmpty emp) <| requireNoOverlap Γ c d false <| requireNoOverlap Γ d c false <|
    some (bop .eq (bop .strContains (concat3 t c s emp) d)
      (bop .or (bop .strContains t d) (bop .or (bop .strContains s d) (.bool false))))

def strOverlapEndpointsCtn (c1 s c2 d1 t d2 emp : Term) : Option Term :=
  eoRequires (strIsEmpty emp) <| requireNoOverlap Γ c1 d1 false <| requireNoOverlap Γ c2 d2 true <|
    some (bop .eq (bop .strContains (concat3 c1 s c2 emp) (concat3 d1 t d2 emp))
      (bop .strContains s (concat3 d1 t d2 emp)))

/-- `(str.++ a b emp)`. -/
abbrev concat2 (a b emp : Term) : Term := bop .strConcat a (bop .strConcat b emp)

def strOverlapEndpointsIndexof (s c t d emp : Term) : Option Term :=
  eoRequires (strIsEmpty emp) <| requireNoOverlap Γ c d true <|
    some (bop .eq (.app (bop .strIndexof (concat2 s c emp) (concat2 t d emp)) (.num 0))
      (.app (bop .strIndexof s (concat2 t d emp)) (.num 0)))

def strOverlapEndpointsReplace (c1 s c2 d1 t d2 r emp : Term) : Option Term :=
  eoRequires (strIsEmpty emp) <| requireNoOverlap Γ c1 d1 false <| requireNoOverlap Γ c2 d2 true <|
    some (bop .eq (.app (bop .strReplace (concat3 c1 s c2 emp) (concat3 d1 t d2 emp)) r)
      (concat3 c1 (.app (bop .strReplace s (concat3 d1 t d2 emp)) r) c2 emp))

/-! ## Steps -/

/-- A step by one of the rules, with the terms that its argument fixes. -/
inductive ContainsStep
  | multisetSubset (t s : Term)
  | overlapSplitCtn (t c s d emp : Term)
  | overlapEndpointsCtn (c1 s c2 d1 t d2 emp : Term)
  | overlapEndpointsIndexof (s c t d emp : Term)
  | overlapEndpointsReplace (c1 s c2 d1 t d2 r emp : Term)
  deriving DecidableEq, Repr

/-- The conclusion of a step, where the requirements of the rule are met. -/
def ContainsStep.conclusion : ContainsStep → Option Term
  | .multisetSubset t s => strCtnMultisetSubset Γ t s
  | .overlapSplitCtn t c s d emp => strOverlapSplitCtn Γ t c s d emp
  | .overlapEndpointsCtn c1 s c2 d1 t d2 emp => strOverlapEndpointsCtn Γ c1 s c2 d1 t d2 emp
  | .overlapEndpointsIndexof s c t d emp => strOverlapEndpointsIndexof Γ s c t d emp
  | .overlapEndpointsReplace c1 s c2 d1 t d2 r emp =>
    strOverlapEndpointsReplace Γ c1 s c2 d1 t d2 r emp

end EthosCpc
