import EthosCpc.Cpc.ReUnfold
import EthosCpc.Cvc5.StrNode

/-!
# The checker of the regular expression rules in cvc5

`RE_INTER`, `RE_CONCAT`, `RE_UNFOLD_POS`, `RE_UNFOLD_NEG` and
`RE_UNFOLD_NEG_CONCAT_FIXED` of `StringProofRuleChecker::checkInternal` in
`theory/strings/proof_checker.cpp`, with `RegExpOpr::reduceRegExpPos`,
`reduceRegExpNeg` and `reduceRegExpNegConcatFixed` of
`theory/strings/regexp_operation.cpp` and
`RegExpEntail::getFixedLengthForRegexp` of `theory/strings/regexp_entail.cpp`.

The skolem `RE_UNFOLD_POS_COMPONENT` of a string, an expression and an index is
printed as an application to the printed arguments, which is a constant of its
own: `κ` names it.  A rule returns no node where cvc5 returns the null node.
-/

namespace EthosCpc.Cvc5

open StrNode

/-! ## Fixed length -/

/-- One component of a union or an intersection: the length so far is kept if this one is the
same. -/
def sameLength (ret flc : Option Int) : Option Int :=
  flc.bind fun n => ret.bind fun m => if m = n then some m else none

mutual

def getFixedLengthForRegexp : StrNode → Option Int
  | .app (.sym .strToRe) [.leaf (.str s)] => some s.length
  | .app (.sym .reAllchar) [] => some 1
  | .app (.sym .reRange) [_, _] => some 1
  | .app (.sym .reUnion) (c :: cs) => sameLengths (getFixedLengthForRegexp c) cs
  | .app (.sym .reInter) (c :: cs) => sameLengths (getFixedLengthForRegexp c) cs
  | .app (.sym .reConcat) (c :: cs) =>
    (getFixedLengthForRegexp c).bind fun n => sumLengths n cs
  | _ => none

/-- The loop over the components of a union or an intersection after the first one. -/
def sameLengths : Option Int → List StrNode → Option Int
  | ret, [] => ret
  | ret, c :: cs => sameLengths (sameLength ret (getFixedLengthForRegexp c)) cs

/-- The loop over the components of a concatenation after the first one. -/
def sumLengths : Int → List StrNode → Option Int
  | sum, [] => some sum
  | sum, c :: cs => (getFixedLengthForRegexp c).bind fun n => sumLengths (sum + n) cs

end

/-! ## Unfolding -/

def mkPrefix (t n : StrNode) : StrNode := mk .strSubstr [t, num 0, n]

def mkSuffix (t n : StrNode) : StrNode :=
  mk .strSubstr [t, n, mk .minus [mk .strLen [t], n]]

def mkSuffixOfLen (t n : StrNode) : StrNode :=
  mk .strSubstr [t, mk .minus [mk .strLen [t], n], n]

variable (κ : Term → Term → Nat → Nat)

/-- The skolem `RE_UNFOLD_POS_COMPONENT`. -/
def unfoldSkolem (s r : StrNode) (i : Nat) : StrNode := .var (κ s.print r.print i)

/-- The loop of `reduceRegExpPos` from component `i` on: the components of the string and the
memberships. -/
def posComponents (sk : Nat → StrNode) : List StrNode → Nat → List StrNode × List StrNode
  | [], _ => ([], [])
  | .app (.sym .strToRe) [t] :: rs, i =>
    let res := posComponents sk rs (i + 1)
    (t :: res.1, res.2)
  | r :: rs, i =>
    let res := posComponents sk rs (i + 1)
    (sk i :: res.1, mk .strInRe [sk i, r] :: res.2)

/-- `reduceRegExpPos` of a concatenation, with the new skolems. -/
def reduceRegExpPosConcat (s : StrNode) (rs : List StrNode) : StrNode × List StrNode :=
  let res := posComponents (unfoldSkolem κ s (mk .reConcat rs)) rs 0
  let lem := eqNode s (mk .strConcat res.1)
  (if res.2 = [] then lem else mk .and (lem :: res.2), res.1)

/-- `RegExpOpr::reduceRegExpPos`.  A concatenation has at least two components. -/
def reduceRegExpPos (s : StrNode) : StrNode → Option StrNode
  | .app (.sym .reConcat) (r0 :: r1 :: rs) =>
    some (reduceRegExpPosConcat κ s (r0 :: r1 :: rs)).1
  | .app (.sym .reStar) [r0] =>
    let exp := reduceRegExpPosConcat κ s [r0, mk .reStar [r0], r0]
    match exp.2 with
    | [k0, _, k2] =>
      some (mk .or [eqNode s (str []), mk .strInRe [s, r0],
        mk .and [exp.1, (eqNode k0 (str [])).negate, (eqNode k2 (str [])).negate]])
    | _ => none
  | _ => none

/-- Formulas with quantifiers over the integers. -/
inductive StrForm
  | ground (F : StrNode)
  | and (F : StrNode) (Q : StrForm)
  | forallInt (body : StrNode → StrNode)

/-- The components but the one at an index, as one expression. -/
def otherComponents (rs : List StrNode) (index : Nat) : StrNode :=
  match rs.eraseIdx index with
  | [r] => r
  | nvec => mk .reConcat nvec

/-- `RegExpOpr::reduceRegExpNegConcatFixed` with a length: the first component or, when reversed,
the last one is split off. -/
def reduceRegExpNegConcatFixed (s : StrNode) (rs : List StrNode) (b1 : StrNode) (isRev : Bool) :
    Option StrNode :=
  let s1 := if isRev then mkSuffixOfLen s b1 else mkPrefix s b1
  let s2 := if isRev then mkPrefix s (mk .minus [mk .strLen [s], b1]) else mkSuffix s b1
  let index := if isRev then rs.length - 1 else 0
  rs[index]?.map fun r1 =>
    mk .or [negate (mk .strInRe [s1, r1]), negate (mk .strInRe [s2, otherComponents rs index])]

/-- `RegExpOpr::reduceRegExpNegConcatFixed` without a length, from the front: the split is at a
bound variable. -/
def reduceRegExpNegConcat (s : StrNode) (rs : List StrNode) : Option StrForm :=
  rs[0]?.map fun r1 => .forallInt fun b1 =>
    mk .or [mk .lt [b1, num 0], mk .lt [mk .strLen [s], b1],
      negate (mk .strInRe [mkPrefix s b1, r1]),
      negate (mk .strInRe [mkSuffix s b1, otherComponents rs 0])]

def reduceRegExpNeg (s : StrNode) : StrNode → Option StrForm
  | .app (.sym .reConcat) (r0 :: r1 :: rs) => reduceRegExpNegConcat s (r0 :: r1 :: rs)
  | .app (.sym .reStar) [r0] =>
    some (.and (eqNode s (str [])).negate (.forallInt fun b1 =>
      mk .or [mk .leq [b1, num 0], mk .lt [mk .strLen [s], b1],
        negate (mk .strInRe [mkPrefix s b1, r0]),
        negate (mk .strInRe [mkSuffix s b1, mk .reStar [r0]])]))
  | _ => none

/-! ## Steps -/

def asMember : StrNode → Option (StrNode × StrNode)
  | .app (.sym .strInRe) [s, r] => some (s, r)
  | _ => none

def asNegMember : StrNode → Option (StrNode × StrNode)
  | .app (.sym .not) [n] => asMember n
  | _ => none

/-- The loop of `RE_INTER`: the string of the first membership, and the expressions. -/
def interLoop : Option StrNode → List StrNode → Option (Option StrNode × List StrNode)
  | x, [] => some (x, [])
  | x, c :: cs => (asMember c).bind fun m =>
    if x.getD m.1 = m.1 then
      (interLoop (some m.1) cs).map fun res => (res.1, m.2 :: res.2)
    else none

/-- `RE_INTER`. -/
def checkReInter (children : List StrNode) : Option StrNode :=
  (interLoop none children).bind fun res => res.1.map fun x =>
    match res.2 with
    | [r] => mk .strInRe [x, r]
    | rs => mk .strInRe [x, mk .reInter rs]

/-- `RE_CONCAT`. -/
def checkReConcat (children : List StrNode) : Option StrNode :=
  if children.length < 2 then none
  else (children.mapM asMember).map fun ms =>
    mk .strInRe [mk .strConcat (ms.map Prod.fst), mk .reConcat (ms.map Prod.snd)]

/-- `RE_UNFOLD_POS`. -/
def checkReUnfoldPos (child : StrNode) : Option StrNode :=
  (asMember child).bind fun m => reduceRegExpPos κ m.1 m.2

/-- `RE_UNFOLD_NEG`. -/
def checkReUnfoldNeg (child : StrNode) : Option StrForm :=
  (asNegMember child).bind fun m => reduceRegExpNeg m.1 m.2

/-- `RE_UNFOLD_NEG_CONCAT_FIXED`. -/
def checkReUnfoldNegConcatFixed (child : StrNode) (isRev : Bool) : Option StrNode :=
  (asNegMember child).bind fun m =>
    match m.2 with
    | .app (.sym .reConcat) (r0 :: r1 :: rs) =>
      ((r0 :: r1 :: rs)[if isRev then rs.length + 1 else 0]?).bind fun r =>
        (getFixedLengthForRegexp r).bind fun n =>
          reduceRegExpNegConcatFixed m.1 (r0 :: r1 :: rs) (num n) isRev
    | _ => none

end EthosCpc.Cvc5
