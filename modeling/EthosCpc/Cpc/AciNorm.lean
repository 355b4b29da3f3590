import EthosCpc.Cpc.Evaluate

/-!
# Normalization of associative operators

The programs of `programs/AciNorm.eo` and the rules `aci_norm` and `absorb`
of `Cpc.eo`.

A normal form is a list: nested applications of the operator are flattened,
identity elements dropped and, for an idempotent operator, repetitions
removed.  The placeholder `@aci.sorted` marks the lists of a commutative
operator, which are compared as multisets.
-/

namespace EthosCpc

open Term (bop uop)

variable (Γ : Nat → Ty)

/-! ## Normal forms -/

/-- `eo::list_concat` and `eo::list_setof` with the nil terminator that the type
of their first list gives. -/
def listConcat (s : Sym) (a b : Term) : Option Term :=
  (nilFor Γ s a).bind fun nil => eoListConcat (.sym s) nil a b

def listSetof (s : Sym) (a : Term) : Option Term :=
  (nilFor Γ s a).bind fun nil => eoListSetof (.sym s) nil a

def listSingletonElim (s : Sym) (a : Term) : Option Term :=
  (nilFor Γ s a).bind fun nil => eoListSingletonElim (.sym s) nil a

def listMeq (s : Sym) (a b : Term) : Option Term :=
  (nilFor Γ s a).bind fun nil => eoListMeq (.sym s) nil a b

/-- The shared recursion of `$get_ai_norm_rec` and `$get_a_norm_rec`, with what
is done to a concatenation. -/
def normRec (post : Term → Option Term) (s : Sym) (id : Term) : Term → Option Term
  | .app (.app f x1) x2 =>
    if f = .sym s then
      (normRec post s id x1).bind fun l1 => (normRec post s id x2).bind fun l2 =>
        (listConcat Γ s l1 l2).bind post
    else if .app (.app f x1) x2 = id then some id
    else some (bop s (.app (.app f x1) x2) id)
  | x => if x = id then some id else some (bop s x id)

def getAiNormRec (s : Sym) (id t : Term) : Option Term := normRec Γ (listSetof Γ s) s id t

def getANormRec (s : Sym) (id t : Term) : Option Term := normRec Γ some s id t

/-- `eo::nil` at the type of a term. -/
def nilAt (s : Sym) (t : Term) : Option Term := (typeof Γ t).bind (eoNil s)

/-- `$get_ai_norm`, for an application of `s`. -/
def getAiNorm (s : Sym) (t : Term) : Option Term :=
  (nilAt Γ s t).bind fun id => (getAiNormRec Γ s id t).bind (listSingletonElim Γ s)

/-- `$get_a_norm`, for an application of `s`. -/
def getANorm (s : Sym) (t : Term) : Option Term :=
  (nilAt Γ s t).bind fun id => (getANormRec Γ s id t).bind (listSingletonElim Γ s)

def aciSorted (s : Sym) (t : Term) : Term := bop .aciSorted (.sym s) t

def getAciNormalForm : Term → Option Term
  | .app (.app (.sym .or) x) y => (getAiNorm Γ .or (bop .or x y)).map (aciSorted .or)
  | .app (.app (.sym .and) x) y => (getAiNorm Γ .and (bop .and x y)).map (aciSorted .and)
  | .app (.app (.sym .reUnion) x) y =>
    (getAiNorm Γ .reUnion (bop .reUnion x y)).map (aciSorted .reUnion)
  | .app (.app (.sym .reInter) x) y =>
    (getAiNorm Γ .reInter (bop .reInter x y)).map (aciSorted .reInter)
  | .app (.app (.sym .bvor) x) y => (getAiNorm Γ .bvor (bop .bvor x y)).map (aciSorted .bvor)
  | .app (.app (.sym .bvand) x) y => (getAiNorm Γ .bvand (bop .bvand x y)).map (aciSorted .bvand)
  | .app (.app (.sym .bvxor) x) y => (getANorm Γ .bvxor (bop .bvxor x y)).map (aciSorted .bvxor)
  | .app (.app (.sym .strConcat) x) y => getANorm Γ .strConcat (bop .strConcat x y)
  | .app (.app (.sym .reConcat) x) y => getANorm Γ .reConcat (bop .reConcat x y)
  | .app (.app (.sym .concat) x) y => getANorm Γ .concat (bop .concat x y)
  | x => some x

/-! ## Comparison of normal forms -/

/-- The third case of `$aci_norm_eq`: two sorted lists of one operator `f`. -/
def aciSortedEq (f t : Term) : Term → Option Bool
  | .app (.app (.sym .aciSorted) g) s =>
    if g = f then
      match f with
      | .sym f => (listMeq Γ f t s).map fun r => decide (r = .bool true)
      | _ => none
    else some false
  | _ => some false

def aciNormEq (t s : Term) : Option Bool :=
  if t = s then some true
  else
    match t with
    | .app (.app (.sym .aciSorted) f) t' => if t' = s then some true else aciSortedEq Γ f t' s
    | _ => some false

def isAciNorm (a b an bn : Term) : Option Bool :=
  (aciNormEq Γ an b).bind fun first =>
    if first then some true
    else (aciNormEq Γ bn a).bind fun second =>
      if second then some true else aciNormEq Γ an bn

def aciNorm : Term → Option Term
  | .app (.app (.sym .eq) a) b =>
    (getAciNormalForm Γ a).bind fun an => (getAciNormalForm Γ b).bind fun bn =>
      eoRequires (isAciNorm Γ a b an bn = some true) (some (bop .eq a b))
  | _ => none

/-! ## Absorbing elements -/

def isAbsorbRec (f zero : Term) : Term → Bool
  | .app (.app g a) b =>
    if .app (.app g a) b = zero then true
    else if g = f then isAbsorbRec f zero a || isAbsorbRec f zero b
    else false
  | t => decide (t = zero)

def getZero : Term → Option Term
  | .app (.app (.sym .or) _) _ => some (.bool true)
  | .app (.app (.sym .and) _) _ => some (.bool false)
  | .app (.app (.sym .reUnion) _) _ => some (.sym .reAll)
  | .app (.app (.sym .reInter) _) _ => some (.sym .reNone)
  | .app (.app (.sym .reConcat) _) _ => some (.sym .reNone)
  | .app (.app (.sym .bvor) x) _ => (bvBitwidth Γ x).bind fun w => bvOnes w
  | .app (.app (.sym .bvand) x) _ => (bvBitwidth Γ x).bind fun w => eoToBin w 0
  | _ => none

def isAbsorb : Term → Term → Option Bool
  | .app (.app f t1) t2, zero => some (isAbsorbRec f zero (.app (.app f t1) t2))
  | _, _ => none

def absorb : Term → Option Term
  | .app (.app (.sym .eq) t) zero =>
    eoRequires (getZero Γ t = some zero) <|
    eoRequires (isAbsorb t zero = some true) <| some (bop .eq t zero)
  | _ => none

end EthosCpc
