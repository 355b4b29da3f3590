import EthosCpc.Eunoia.StringLiteral
import EthosCpc.Cpc.Overlap
import EthosCpc.Cpc.ReUnfold

/-!
# Rules on word equations

The rules `concat_eq`, `concat_unify`, `concat_csplit`, `concat_split`,
`concat_lprop`, `concat_cprop` and `string_decompose` of `rules/Strings.eo`.
The flag `rev` of a rule says whether it is about the ends of the two
strings instead of their beginnings.
-/

namespace EthosCpc

open Term (bop uop)

variable (Γ : Nat → Ty)

/-! ## Components -/

/-- `eo::list_nth` of `str.++`. -/
def strListNth (t : Term) (i : Int) : Option Term :=
  (nilFor Γ .strConcat t).bind fun nil => eoListNth (.sym .strConcat) nil t i

def strHead (t : Term) : Option Term := strListNth Γ t 0

/-- The first component of a string, or the last one. -/
def strFirst (t : Term) (rev : Bool) : Option Term :=
  (strToNaryForm Γ t rev).bind (strHead Γ)

/-- `(str.++ a b)`, or `(str.++ b a)` in the reverse direction. -/
def strConcatDir (rev : Bool) (a b : Term) : Option Term :=
  if rev then mkNary Γ .strConcat b [a] else mkNary Γ .strConcat a [b]

def strUnifySplit (t s : Term) (rev : Bool) : Term :=
  .app (bop .ite (bop .geq (uop .strLen t) (uop .strLen s))
    (if rev then strPrefix t (bop .minus (uop .strLen t) (uop .strLen s))
      else strSuffixRem t (uop .strLen s)))
    (if rev then strPrefix s (bop .minus (uop .strLen s) (uop .strLen t))
      else strSuffixRem s (uop .strLen t))

/-! ## Conclusions of the rules -/

def concatEq (s t : Term) (rev : Bool) : Option Term :=
  (strToNaryForm Γ s rev).bind fun sn => (strToNaryForm Γ t rev).bind fun tn =>
    (strFromNaryForm Γ (strStripPrefix sn tn).1 rev).bind fun a =>
      (strFromNaryForm Γ (strStripPrefix sn tn).2 rev).map fun b => bop .eq a b

def concatUnify (s t s1 t1 : Term) (rev : Bool) : Option Term :=
  (strFirst Γ s rev).bind fun s1' => (strFirst Γ t rev).bind fun t1' =>
    eoRequires (decide (s1' = s1)) <| eoRequires (decide (t1' = t1)) <| some (bop .eq s1 t1)

def concatCsplit (t s u : Term) (rev : Bool) : Option Term :=
  (strFirst Γ t rev).bind fun t1 => (strFirst Γ s rev).bind fun s1 =>
    eoRequires (decide (t1 = u)) <| eoRequires (strCheckLengthOne s1) <|
      (strConcatDir Γ rev s1 (uop .purify
        (if rev then strPrefix u (bop .minus (uop .strLen u) (.num 1))
          else strSuffixRem u (.num 1)))).map (bop .eq u)

def concatSplit (t s tc sc : Term) (rev : Bool) : Option Term :=
  (strFirst Γ t rev).bind fun t1 => (strFirst Γ s rev).bind fun s1 =>
    let k := uop .purify (strUnifySplit t1 s1 rev)
    eoRequires (decide (t1 = tc)) <| eoRequires (decide (s1 = sc)) <|
      (strConcatDir Γ rev s1 k).bind fun a => (strConcatDir Γ rev t1 k).bind fun b =>
        (strNil Γ k).map fun nil =>
          mkAnd [bop .or (bop .eq t1 a) (bop .or (bop .eq s1 b) (.bool false)),
            uop .not (bop .eq k nil), bop .gt (uop .strLen k) (.num 0)]

def concatLprop (t s tc sc : Term) (rev : Bool) : Option Term :=
  (strFirst Γ t rev).bind fun t1 => (strFirst Γ s rev).bind fun s1 =>
    let k := uop .purify (strUnifySplit t1 s1 rev)
    eoRequires (decide (t1 = tc)) <| eoRequires (decide (s1 = sc)) <|
      (strConcatDir Γ rev s1 k).bind fun a => (strNil Γ k).map fun nil =>
        mkAnd [bop .eq t1 a, uop .not (bop .eq k nil), bop .gt (uop .strLen k) (.num 0)]

/-- The literal `s1` without its first, or last, character. -/
def dropFirst (s1 : Term) (rev : Bool) : Option Term :=
  match s1 with
  | .str w =>
    some (.str (if rev then eoStrExtract w 0 (w.length - 2) else eoStrExtract w 1 w.length))
  | _ => none

def concatCprop (t tc s : Term) (rev : Bool) : Option Term :=
  (strToNaryForm Γ t rev).bind fun tn => (strHead Γ tn).bind fun t1 =>
    (strListNth Γ tn 1).bind fun t2 => (strFirst Γ s rev).bind fun s1 =>
      (dropFirst s1 rev).bind fun s1s => (strOverlap Γ s1s t2 rev).bind fun n =>
        eoRequires (decide (t1 = tc)) <|
          let v := Term.num (1 + n)
          let oc := if rev then strSuffix s1 v else strPrefix s1 v
          (strConcatDir Γ rev oc (uop .purify
            (if rev then strPrefix tc (bop .minus (uop .strLen tc) (uop .strLen oc))
              else strSuffixRem tc (uop .strLen oc)))).map (bop .eq tc)

def stringDecompose (s n : Term) (b : Bool) : Option Term :=
  let kp := uop .purify (if b then strPrefixRem s n else strPrefix s n)
  let ks := uop .purify (if b then strSuffix s n else strSuffixRem s n)
  (mkNary Γ .strConcat kp [ks]).map fun ps =>
    mkAnd [bop .eq s ps, bop .eq (uop .strLen (if b then ks else kp)) n]

/-! ## Steps -/

/-- A step by one of the rules, with the terms that its premises and arguments fix. -/
inductive WordEqStep
  | concatEq (s t : Term) (rev : Bool)
  | concatUnify (s t s1 t1 : Term) (rev : Bool)
  | concatCsplit (t s u : Term) (rev : Bool)
  | concatSplit (t s tc sc : Term) (rev : Bool)
  | concatLprop (t s tc sc : Term) (rev : Bool)
  | concatCprop (t tc s : Term) (rev : Bool)
  | stringDecompose (s n : Term) (b : Bool)
  deriving DecidableEq, Repr

/-- `(not (= (str.len t) 0))`. -/
def lenNeZero (t : Term) : Term := uop .not (bop .eq (uop .strLen t) (.num 0))

def WordEqStep.premises : WordEqStep → List Term
  | .concatEq s t _ => [bop .eq s t]
  | .concatUnify s t s1 t1 _ => [bop .eq s t, bop .eq (uop .strLen s1) (uop .strLen t1)]
  | .concatCsplit t s u _ => [bop .eq t s, lenNeZero u]
  | .concatSplit t s tc sc _ =>
    [bop .eq t s, uop .not (bop .eq (uop .strLen tc) (uop .strLen sc))]
  | .concatLprop t s tc sc _ => [bop .eq t s, bop .gt (uop .strLen tc) (uop .strLen sc)]
  | .concatCprop t tc s _ => [bop .eq t s, lenNeZero tc]
  | .stringDecompose s n _ => [bop .geq n (.num 0), bop .geq (uop .strLen s) n]

/-- The conclusion of a step, where the rule yields one. -/
def WordEqStep.conclusion : WordEqStep → Option Term
  | .concatEq s t rev => EthosCpc.concatEq Γ s t rev
  | .concatUnify s t s1 t1 rev => EthosCpc.concatUnify Γ s t s1 t1 rev
  | .concatCsplit t s u rev => EthosCpc.concatCsplit Γ t s u rev
  | .concatSplit t s tc sc rev => EthosCpc.concatSplit Γ t s tc sc rev
  | .concatLprop t s tc sc rev => EthosCpc.concatLprop Γ t s tc sc rev
  | .concatCprop t tc s rev => EthosCpc.concatCprop Γ t tc s rev
  | .stringDecompose s n b => EthosCpc.stringDecompose Γ s n b

end EthosCpc
